import Elementwise.Proofs.Evaluate.Basic

/-!
# Performing programs

What a program does on one element, step by step, where expressions may assign. Every declaration has a
cell of its own, numbered in the order of the text; a name stands for the cell of its declaration. An
expression that is a bare local stands for the cell itself, and is read only when it is used, after its
siblings were evaluated; every other expression stands for a datum. The component of a field is replaced
in what the field held when the target was evaluated, and the whole is written back.

A discipline says otherwise: operands may be read as soon as they are evaluated, and components may be
replaced in place.
-/

namespace Elementwise

/-- A cell for each declaration, the element, and the native calls, the last one first. A cell that was not
set yet reads as zero. -/
structure Store where
  cells : Nat → Option Value := fun _ => none
  element : ElementState
  calls : List NativeCall := []

/-- What an expression stands for: a cell that is read when it is used, or a datum. -/
inductive Referent where
  | cell (index : Nat) (ty : Ty)
  | datum (d : Datum)

/-- What can be assigned as a whole. -/
inductive Base where
  | cell (index : Nat) (ty : Ty)
  | slot (slot : Nat) (ty : Ty)

/-- Where an assignment puts its value. -/
inductive Site where
  | whole (base : Base)
  /-- A component of a base; `loaded` is the base as it was when the target was evaluated. -/
  | component (base : Base) (loaded index : Referent)

/-- How operands are read and components are replaced. -/
structure Discipline where
  /-- An operand is read as soon as it is evaluated, whatever its siblings assign. -/
  byValue : Bool
  /-- A component is read and replaced in what its base holds then. -/
  inPlace : Bool

/-- Operands are read when they are used, and components replaced in what was loaded. -/
def Discipline.lazy : Discipline := ⟨false, false⟩

/-- Operands are read as soon as they are evaluated. -/
def Discipline.eager : Discipline := ⟨true, false⟩

/-- Components are replaced in what their base holds then. -/
def Discipline.direct : Discipline := ⟨false, true⟩

namespace Store

/-- What a cell of a type holds. -/
def cell (s : Store) (index : Nat) (ty : Ty) : Datum := ⟨ty, (s.cells index).getD (.zero ty)⟩

/-- What a slot of a type holds. -/
def slot (s : Store) (slot : Nat) (ty : Ty) : Datum := ⟨ty, (s.element.read? slot).getD (.zero ty)⟩

/-- What a referent stands for. -/
def read (s : Store) : Referent → Datum
  | .cell index ty => s.cell index ty
  | .datum d => d

/-- Put a value into a cell. -/
def setCell (s : Store) (index : Nat) (v : Value) : Store :=
  { s with cells := fun i => if i = index then some v else s.cells i }

/-- Put a datum into a base. -/
def set (s : Store) : Base → Datum → Store
  | .cell index _, d => s.setCell index d.value
  | .slot slot _, d => { s with element := s.element.write slot d.value }

/-- A base as an operand: a cell is still to be read, a slot is read. -/
def load (s : Store) : Base → Referent
  | .cell index ty => .cell index ty
  | .slot slot ty => .datum (s.slot slot ty)

end Store

/-- The type of what a referent stands for. -/
def Referent.ty : Referent → Ty
  | .cell _ ty => ty
  | .datum d => d.ty

theorem Store.ty_read (σ : Store) (h : Referent) : (σ.read h).ty = h.ty := by cases h <;> rfl

/-- The type of what a base holds. -/
def Base.ty : Base → Ty
  | .cell _ ty => ty
  | .slot _ ty => ty

/-- The type of what a site holds. -/
def Site.ty : Site → Ty
  | .whole base => base.ty
  | .component _ container _ => container.ty.elementTy

/-- How an action ends. -/
inductive Result (α : Type) where
  | value (a : α) (s : Store)
  | fault (fault : Fault) (s : Store)
  /-- The program has no meaning here. -/
  | stuck

/-- A computation that may change the store. -/
def Act (α : Type) := Store → Result α

namespace Act

variable {α β : Type}

instance : Monad Act where
  pure a s := .value a s
  bind x k s :=
    match x s with
    | .value a s => k a s
    | .fault fault s => .fault fault s
    | .stuck => .stuck

theorem bind_apply (x : Act α) (k : α → Act β) (s : Store) :
    (x >>= k) s = match x s with
      | .value a s => k a s
      | .fault fault s => .fault fault s
      | .stuck => .stuck := rfl

instance : LawfulMonad Act := by
  refine LawfulMonad.mk' Act (fun x => ?_) (fun _ _ => rfl) (fun x f g => ?_)
  · funext s
    change (match x s with
      | .value a s => .value a s
      | .fault fault s => .fault fault s
      | .stuck => .stuck) = x s
    cases x s <;> rfl
  · funext s
    simp only [bind_apply]
    cases x s <;> rfl

/-- There is no result. -/
def stuck : Act α := fun _ => .stuck

/-- A result that may be missing. -/
def ofOption : Option α → Act α
  | some a => pure a
  | none => stuck

/-- Something that is read from the store. -/
def look (f : Store → α) : Act α := fun s => .value (f s) s

/-- A change of the store. -/
def change (f : Store → Store) : Act Unit := fun s => .value () (f s)

/-- A computation on the element, with its native calls. -/
def compute (f : ElementState → Eval α) : Act α := fun s =>
  match f s.element s.calls with
  | .value a calls => .value a { s with calls }
  | .fault fault calls => .fault fault { s with calls }
  | .stuck => .stuck

end Act

/-- The visible locals, innermost scope first, each with its cell and type, and the types of all cells, in the
order of their declarations. -/
structure Names where
  scopes : List (List (String × Nat × Ty)) := []
  types : List Ty := []

namespace Names

/-- The next cell. -/
def next (names : Names) : Nat := names.types.length

/-- The cell of a name, and its type. -/
def find? (names : Names) (name : String) : Option (Nat × Ty) := names.scopes.findSome? fun scope => scope.lookup name

/-- The names in a scope of its own. -/
def enter (names : Names) : Names := { names with scopes := [] :: names.scopes }

/-- The names after the innermost scope. -/
def leave (names : Names) : Names := { names with scopes := names.scopes.tail }

/-- The names with one more local in the innermost scope. -/
def declare (names : Names) (name : String) (ty : Ty) : Names where
  scopes := match names.scopes with
    | scope :: rest => ((name, names.next, ty) :: scope) :: rest
    | [] => []
  types := names.types ++ [ty]

mutual
/-- The names after a statement, whichever way control went through it. -/
def after (names : Names) : Term → Names
  | .node _ (.block statements) => (afterAll names.enter statements).leave
  | .node _ (.conditional _ thenBranch elseBranch) => (names.after thenBranch).after elseBranch
  | .node _ (.loop _ start _ step body) =>
    let inner := match start with
      | none => names.enter
      | some start => names.enter.after start
    let inner := inner.after body
    (match step with
      | none => inner
      | some step => inner.after step).leave
  | .node _ (.declare ty name _) =>
    match name.localName? with
    | none => names
    | some name => names.declare name ty
  | _ => names

/-- The names after statements. -/
def afterAll (names : Names) : List Term → Names
  | [] => names
  | t :: rest => (names.after t).afterAll rest
end

/-- The names after a statement that may be absent. -/
def after? (names : Names) : Option Term → Names
  | none => names
  | some t => names.after t

end Names

namespace Perform

/-- Read a referent. -/
def settle (h : Referent) : Act Datum := Act.look fun s => s.read h

/-- Read referents. -/
def settleAll (hs : List Referent) : Act (List Datum) := Act.look fun s => hs.map s.read

/-- An operand as it waits for its siblings. -/
def pass (δ : Discipline) (h : Referent) : Act Referent := if δ.byValue then .datum <$> settle h else pure h

/-- The referent converted to a type; itself if it has that type. -/
def convert (h : Referent) (goal : Ty) : Act Referent :=
  if h.ty = goal then pure h else do
    let d ← settle h
    return .datum (d.convert goal)

/-- The referent converted to a type, if it converts implicitly. -/
def coerce (h : Referent) (goal : Ty) : Act Referent := if h.ty.convertsTo goal then convert h goal else Act.stuck

/-- An integer as an index. -/
def asIndex (h : Referent) : Act Referent := if h.ty.isIntegerScalar then convert h .int32 else Act.stuck

/-- A scalar as a truth value. -/
def truth (h : Referent) : Act Datum := do
  let d ← settle h
  Act.ofOption d.truth?

/-- What an operator gives. -/
def operate (op : BinaryOp) (l r : Referent) : Act Referent := do
  let l ← settle l
  let r ← settle r
  let d ← Act.ofOption (Datum.operate? op l r)
  return .datum d

/-- A component. -/
def component (container index : Referent) : Act Referent := do
  let d ← settle container
  let i ← settle index
  return .datum (d.component i)

/-- The position of a component of a container of a type: of a vector or matrix by one index, of a matrix by
row and column. The row waits for the column as `wait` says. -/
def position (wait : Referent → Act Referent) (ty : Ty) (index : Act Referent) (column : Option (Act Referent)) : Act Referent :=
  match ty, column with
  | .vector _ _, none | .matrix _ _, none => do
    let i ← index
    asIndex i
  | .matrix _ n, some column => do
    let i ← index
    let i ← asIndex i
    let i ← wait i
    let j ← column
    let j ← asIndex j
    let i ← settle i
    let j ← settle j
    return .datum (Datum.entryIndex n i j)
  | _, _ => Act.stuck

/-- The container of a component: the base as it was loaded, or as it is now. -/
def container (δ : Discipline) (base : Base) (loaded : Referent) : Act Referent :=
  if δ.inPlace then Act.look fun s => s.load base else pure loaded

/-- What a site holds. -/
def load (δ : Discipline) : Site → Act Referent
  | .whole base => Act.look fun s => s.load base
  | .component base loaded index => do
    let c ← container δ base loaded
    component c index

/-- Put what a referent stands for into a site. -/
def store (δ : Discipline) : Site → Referent → Act Unit
  | .whole base, h => do
    let d ← settle h
    Act.change fun s => s.set base d
  | .component base loaded index, h => do
    let c ← container δ base loaded
    let c ← settle c
    let i ← settle index
    let d ← settle h
    Act.change fun s => s.set base (c.replace i d)

/-- Assign to a site, after the operator of a compound assignment. -/
def assign (δ : Discipline) (compound : Option BinaryOp) (site : Site) (h : Referent) : Act Referent := do
  let h ← match compound with
    | none => pure h
    | some op => do
      let current ← load δ site
      operate op current h
  let h ← coerce h site.ty
  store δ site h
  return h

/-- What an assignment puts into a site. -/
def revised (δ : Discipline) (compound : Option BinaryOp) (site : Site) (a : Referent) : Act Referent :=
  match compound with
  | none => coerce a site.ty
  | some op => do
    let current ← load δ site
    let a ← operate op current a
    coerce a site.ty

/-- An assignment stores what it puts into its site. -/
theorem assign_eq (δ : Discipline) (compound : Option BinaryOp) (site : Site) (a : Referent) :
    assign δ compound site a = revised δ compound site a >>= fun a => store δ site a >>= fun _ => pure a := by
  cases compound <;> simp only [assign, revised, bind_assoc, pure_bind]

/-- Step a site by one; the result is the old value of a post form, else the new one. -/
def step (δ : Discipline) (op : CrementOp) (post : Bool) (site : Site) : Act Referent := do
  let current ← load δ site
  let d ← settle current
  store δ site (.datum (d.step op))
  return .datum (if post then d else d.step op)

/-- A call of a function. -/
def call (name : String) (hs : List Referent) : Act Referent := do
  let args ← settleAll hs
  let d ← Act.compute fun element => Evaluate.call element name args
  return .datum d

/-- The cell of a name that is visible. -/
def local? (names : Names) (name : String) : Act (Nat × Ty) := Act.ofOption (names.find? name)

/-- The entry of a field. -/
def entry (w : World) (name : String) : Act Entry := Act.ofOption (w.registry.get? name)

variable (δ : Discipline) (w : World) (names : Names)

mutual
/-- What an expression stands for, after its effects. -/
def referent : Term → Act Referent
  | .missing _ => Act.stuck
  | .node _ content => referentNode content

/-- What a node stands for, after its effects. -/
def referentNode : Node Term → Act Referent
  | .value literal => return .datum (.ofValue literal.toValue)
  | .localName name => do
    let (index, ty) ← local? names name
    return .cell index ty
  | .field name _ _ _ => do
    let e ← entry w name
    Act.look fun s => .datum (s.slot e.index e.ty)
  | .external name ty => return .datum (w.host name ty)
  | .binary op left right =>
    if op.opClass = .logical then do
      let l ← referent left
      let l ← truth l
      -- the right operand is only evaluated if the left one does not decide
      if l.value.truthy = decide (op = .and) then do
        let r ← referent right
        let r ← truth r
        return .datum r
      else return .datum l
    else do
      let l ← referent left
      let l ← pass δ l
      let r ← referent right
      operate op l r
  | .unary op operand => do
    let h ← referent operand
    let d ← settle h
    let d ← Act.ofOption (d.unary? op)
    return .datum d
  | .crement op post target => do
    let site ← place target
    step δ op post site
  | .assign target value compound => do
    let site ← place target
    let h ← referent value
    assign δ compound site h
  | .cast ty operand => do
    let h ← referent operand
    coerce h ty
  | .call name args =>
    match Evaluate.lookup? name args with
    | some (host, ty) => return .datum (w.host host ty)
    | none => do
      let hs ← referents args
      call name hs
  | .pack items => do
    let hs ← referents items
    let ds ← settleAll hs
    let d ← Act.ofOption (Datum.pack? ds)
    return .datum d
  | .unpack array index column => do
    let container ← referent array
    let container ← pass δ container
    let i ← position (pass δ) container.ty (referent index)
      (match column with
        | none => none
        | some column => some (referent column))
    component container i
  | .block _ | .conditional _ _ _ | .loop _ _ _ _ _ | .jump _ | .declare _ _ _ => Act.stuck

/-- What expressions stand for, evaluated from left to right. -/
def referents : List Term → Act (List Referent)
  | [] => return []
  | t :: rest => do
    let h ← referent t
    let h ← pass δ h
    let hs ← referents rest
    return h :: hs

/-- The site of a target. -/
def place : Term → Act Site
  | .node _ (.localName name) => do
    let (index, ty) ← local? names name
    return .whole (.cell index ty)
  | .node _ (.field name _ _ _) => do
    let e ← entry w name
    return .whole (.slot e.index e.ty)
  | .node _ (.unpack array index column) => do
    let site ← place array
    match site with
    | .component _ _ _ => Act.stuck
    | .whole base => do
      let container ← Act.look fun s => s.load base
      let i ← position (pass δ) container.ty (referent index)
        (match column with
          | none => none
          | some column => some (referent column))
      let i ← pass δ i
      return .component base container i
  | _ => Act.stuck
end

/-- What a component stands for. -/
theorem referent_unpack (id : NodeId) (array row : Term) (column : Option Term) :
    referent δ w names (.node id (.unpack array row column)) = (do
      let container ← referent δ w names array
      let container ← pass δ container
      let i ← position (pass δ) container.ty (referent δ w names row) (column.map (referent δ w names))
      component container i) := by
  cases column <;> rfl

/-- The site of a component. -/
theorem place_unpack (id : NodeId) (array row : Term) (column : Option Term) :
    place δ w names (.node id (.unpack array row column)) = (do
      let site ← place δ w names array
      match site with
      | .component _ _ _ => Act.stuck
      | .whole base => do
        let container ← Act.look fun s => s.load base
        let i ← position (pass δ) container.ty (referent δ w names row) (column.map (referent δ w names))
        let i ← pass δ i
        return .component base container i) := by
  cases column <;> (rw [place]; rfl)

/-- Whether a condition holds. -/
def holds (test : Term) : Act Bool := do
  let h ← referent δ w names test
  let d ← truth h
  return d.value.truthy

/-- Whether a loop goes on. -/
def continues (test : Option Term) : Act Bool :=
  match test with
  | none => pure true
  | some test => holds δ w names test

/-- What a local of a type starts with. -/
def initial (ty : Ty) (start : Option Term) : Act Datum :=
  match start with
  | none => return .zero ty
  | some start => do
    let h ← referent δ w names start
    let h ← coerce h ty
    settle h

end Perform

/-- How statements end. -/
inductive Course where
  | done (flow : Flow) (s : Store)
  | fault (fault : Fault) (s : Store)
  /-- The program has no meaning here. -/
  | stuck
  /-- A loop used up its fuel. -/
  | exhausted

namespace Course

/-- Go on if control reaches the end. -/
def andThen (c : Course) (k : Store → Course) : Course :=
  match c with
  | .done .next s => k s
  | other => other

/-- What a course that came to an end shows. -/
def ending? : Course → Option Ending
  | done _ s => some ⟨none, s.element, s.calls⟩
  | fault reason s => some ⟨some reason, s.element, s.calls⟩
  | stuck | exhausted => none

end Course

/-- Go on with the result of an action. -/
def Result.andThen {α : Type} (r : Result α) (k : α → Store → Course) : Course :=
  match r with
  | .value a s => k a s
  | .fault reason s => .fault reason s
  | .stuck => .stuck

namespace Perform

/-- The passes of a loop; `first` skips the test once. A jump out of `step` other than a return has no effect. -/
def passes (test : Act Bool) (body step : Store → Course) : Nat → Bool → Store → Course
  | 0, _, _ => .exhausted
  | fuel + 1, first, s =>
    ((if first then pure true else test : Act Bool) s).andThen fun again s =>
      if again then
        match body s with
        | .done (.jump .break) s => .done .next s
        | .done (.jump .return) s => .done (.jump .return) s
        | .done _ s =>
          match step s with
          | .done (.jump .return) s => .done (.jump .return) s
          | .done _ s => passes test body step fuel false s
          | other => other
        | other => other
      else .done .next s

variable (δ : Discipline) (w : World) (fuel : Nat)

mutual
/-- Perform a statement. -/
def exec : Term → Names → Store → Course
  | .missing _, _, s => .done .next s
  | .node _ (.block statements), names, s => execAll statements names.enter s
  | .node _ (.conditional test thenBranch elseBranch), names, s =>
    (holds δ w names test s).andThen fun yes s =>
      if yes then exec thenBranch names s else exec elseBranch (names.after thenBranch) s
  | .node _ (.loop kind start test step body), names, s =>
    let inner := names.enter.after? start
    let begun : Course := match start with
      | none => .done .next s
      | some start => exec start names.enter s
    let step : Store → Course := match step with
      | none => fun s => .done .next s
      | some step => exec step (inner.after body)
    begun.andThen (passes (continues δ w inner test) (exec body inner) step fuel (kind == LoopKind.doWhile))
  | .node _ (.jump word), _, s => .done (.jump word) s
  | .node _ (.declare ty name start), names, s =>
    match name.localName? with
    | none => .stuck
    | some _ => (initial δ w names ty start s).andThen fun d s => .done .next (s.setCell names.next d.value)
  | .node _ content, names, s => (referentNode δ w names content s).andThen fun _ s => .done .next s

/-- Perform statements, one after another, up to the first jump. -/
def execAll : List Term → Names → Store → Course
  | [], _, s => .done .next s
  | t :: rest, names, s => (exec t names s).andThen (execAll rest (names.after t))
end

end Perform

/-- A program that is performed on an element comes to the given end. -/
def Term.PerformsTo (δ : Discipline) (w : World) (program : Term) (element : ElementState) (ending : Ending) : Prop :=
  ∃ fuel, (Perform.exec δ w fuel program {} { element }).ending? = some ending

end Elementwise
