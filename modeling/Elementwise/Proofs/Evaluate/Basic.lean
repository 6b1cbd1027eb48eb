import Elementwise.Compile.External
import Elementwise.Proofs.Code.Ending
import Elementwise.Proofs.Evaluate.Datum

/-!
# Evaluating programs

The direct meaning of a program on one element, by recursion over its term. Expressions are computed
where they stand; they change nothing, so an assignment or a step has no value here, only an effect.
Statements take a scene to a scene: the locals that are visible, innermost first, the element, and the
native calls made so far. A scope ends by dropping the locals that were declared in it. Every pass through
a loop takes one unit of fuel.
-/

namespace Elementwise

/-- What a program is evaluated in: the fields of the element, and the values of the host. -/
structure World where
  registry : Registry
  custom : CustomData

/-- The visible locals, innermost first, the element, and the native calls, the last one first. -/
structure Scene where
  locals : List (String × Datum) := []
  element : ElementState
  calls : List NativeCall := []

/-- What an assignment changes. -/
inductive Spot where
  | named (name : String)
  | slot (slot : Nat) (ty : Ty)
  | component (base : Spot) (index : Datum)

/-- How evaluation of statements ends. -/
inductive Run where
  | done (flow : Flow) (scene : Scene)
  | fault (fault : Fault) (scene : Scene)
  /-- The program has no meaning here. -/
  | stuck
  /-- A loop used up its fuel. -/
  | exhausted

/-- The value that a name of the host stands for; zero if the host has none. -/
def World.host (w : World) (name : String) (ty : Ty) : Datum := .ofValue ((w.custom.get? name).getD (.zero ty))

namespace Scene

/-- What a slot of a type holds. -/
def slot (s : Scene) (slot : Nat) (ty : Ty) : Datum := ⟨ty, (s.element.read? slot).getD (.zero ty)⟩

/-- What a field holds. -/
def field? (s : Scene) (w : World) (name : String) : Option Datum :=
  (w.registry.get? name).map fun entry => s.slot entry.index entry.ty

/-- What a spot holds. -/
def read? (s : Scene) : Spot → Option Datum
  | .named name => s.locals.lookup name
  | .slot slot ty => some (s.slot slot ty)
  | .component base index => (s.read? base).map fun d => d.component index

/-- The innermost local of a name replaced. -/
def setLocal (name : String) (d : Datum) : List (String × Datum) → List (String × Datum)
  | [] => []
  | entry :: rest => if name == entry.1 then (entry.1, d) :: rest else entry :: setLocal name d rest

/-- Put a datum into a spot. A component is replaced in what its base holds. -/
def write (s : Scene) : Spot → Datum → Scene
  | .named name, d => { s with locals := setLocal name d s.locals }
  | .slot slot _, d => { s with element := s.element.write slot d.value }
  | .component base index, d =>
    match s.read? base with
    | some container => s.write base (container.replace index d)
    | none => s

/-- Declare a local. -/
def declare (s : Scene) (name : String) (d : Datum) : Scene := { s with locals := (name, d) :: s.locals }

/-- Drop all but the outermost locals. -/
def leave (s : Scene) (count : Nat) : Scene := { s with locals := s.locals.drop (s.locals.length - count) }

/-- Go on with what a computation gives. -/
def after {α : Type} (s : Scene) (x : Eval α) (k : α → Scene → Run) : Run :=
  match x s.calls with
  | .value a calls => k a { s with calls }
  | .fault fault calls => .fault fault { s with calls }
  | .stuck => .stuck

end Scene

namespace Run

/-- Go on if control reaches the end. -/
def andThen (r : Run) (k : Scene → Run) : Run :=
  match r with
  | .done .next s => k s
  | other => other

/-- The end of a scope that began with a number of locals. -/
def leave (r : Run) (count : Nat) : Run :=
  match r with
  | .done flow s => .done flow (s.leave count)
  | other => other

/-- What a run that came to an end shows. -/
def ending? : Run → Option Ending
  | done _ s => some ⟨none, s.element, s.calls⟩
  | fault reason s => some ⟨some reason, s.element, s.calls⟩
  | stuck | exhausted => none

end Run

/-- The name of the local that a term is. -/
def Term.localName? : Term → Option String
  | .node _ (.localName name) => some name
  | _ => none

/-- The string that a term is. -/
def Term.text? : Term → Option String
  | .node _ (.value (.string s)) => some s
  | _ => none

namespace Evaluate

/-- The name and type of the host value that a call asks for by a literal name. -/
def lookup? (function : String) (args : List Term) : Option (String × Ty) :=
  match args with
  | [arg] => arg.text?.bind fun name => (Tree.externalTy? function).map fun ty => (name, ty)
  | _ => none

/-- The position of a component: of a vector or matrix by one index, of a matrix by row and column. -/
def position (container : Datum) (index : Eval Datum) (column : Option (Eval Datum)) : Eval Datum :=
  match container.ty, column with
  | .vector _ _, none | .matrix _ _, none => do
    let i ← index
    Eval.ofOption i.index?
  | .matrix _ n, some column => do
    let i ← index
    let i ← Eval.ofOption i.index?
    let j ← column
    let j ← Eval.ofOption j.index?
    return Datum.entryIndex n i j
  | _, _ => Eval.stuck

/-- The arguments of a call, each converted to the parameter that receives it. -/
def convertArguments (signature : Signature) : Nat → List Datum → List Datum
  | _, [] => []
  | i, d :: rest =>
    (match signature.param? i with
      | some (param, _) => d.convert param
      | none => d) :: convertArguments signature (i + 1) rest

/-- A call of a function of the standard library. -/
def call (element : ElementState) (name : String) (args : List Datum) : Eval Datum :=
  match Library.standard.resolve name (args.map Datum.ty) with
  | .error _ => Eval.stuck
  | .ok resolution =>
    let signature := resolution.function.signature
    let args := convertArguments signature 0 args
    match resolution.function.implementation with
    | .native body => Eval.native name body args signature.ret
    | .emitted _ => do
      let builtin ← Eval.ofOption (Builtin.ofName? name)
      builtin.apply element args

mutual
/-- The value of an expression in a scene. -/
def value (w : World) (s : Scene) : Term → Eval Datum
  | .missing _ => Eval.stuck
  | .node _ content => valueNode w s content

/-- The value of a node in a scene. -/
def valueNode (w : World) (s : Scene) : Node Term → Eval Datum
  | .value literal => return .ofValue literal.toValue
  | .localName name => Eval.ofOption (s.locals.lookup name)
  | .field name _ _ _ => Eval.ofOption (s.field? w name)
  | .external name ty => return w.host name ty
  | .binary op left right => do
    let l ← value w s left
    if op.opClass = .logical then
      let l ← Eval.ofOption l.truth?
      -- the right operand is only evaluated if the left one does not decide
      if l.value.truthy = decide (op = .and) then
        let r ← value w s right
        Eval.ofOption r.truth?
      else return l
    else
      let r ← value w s right
      Eval.ofOption (Datum.operate? op l r)
  | .unary op operand => do
    let d ← value w s operand
    Eval.ofOption (d.unary? op)
  | .cast ty operand => do
    let d ← value w s operand
    Eval.ofOption (d.coerce? ty)
  | .call name args =>
    match lookup? name args with
    | some (host, ty) => return w.host host ty
    | none => do
      let args ← values w s args
      call s.element name args
  | .pack items => do
    let items ← values w s items
    Eval.ofOption (Datum.pack? items)
  | .unpack array index column => do
    let d ← value w s array
    let i ← position d (value w s index)
      (match column with
        | none => none
        | some column => some (value w s column))
    return d.component i
  | .assign _ _ _ | .crement _ _ _ | .block _ | .conditional _ _ _ | .loop _ _ _ _ _ | .jump _ | .declare _ _ _ =>
    Eval.stuck

/-- The values of expressions, from left to right. -/
def values (w : World) (s : Scene) : List Term → Eval (List Datum)
  | [] => return []
  | t :: rest => do
    let d ← value w s t
    let ds ← values w s rest
    return d :: ds
end

/-- The spot that a target of assignment stands for. -/
def spot (w : World) (s : Scene) : Term → Eval Spot
  | .node _ (.localName name) => do
    let _ ← Eval.ofOption (s.locals.lookup name)
    return .named name
  | .node _ (.field name _ _ _) => do
    let entry ← Eval.ofOption (w.registry.get? name)
    return .slot entry.index entry.ty
  | .node _ (.unpack array index column) => do
    let base ← spot w s array
    let d ← Eval.ofOption (s.read? base)
    let i ← position d (value w s index) (column.map fun column => value w s column)
    return .component base i
  | _ => Eval.stuck

/-- What an assignment puts in the place of what is there. The operator of a compound form is applied to it. -/
def revised (compound : Option BinaryOp) (current d : Datum) : Eval Datum :=
  match compound with
  | none => Eval.ofOption (d.coerce? current.ty)
  | some op => do
    let d ← Eval.ofOption (Datum.operate? op current d)
    Eval.ofOption (d.coerce? current.ty)

/-- What an assignment puts where. -/
def assignment (w : World) (s : Scene) (target value : Term) (compound : Option BinaryOp) : Eval (Spot × Datum) := do
  let spot ← spot w s target
  let d ← Evaluate.value w s value
  let current ← Eval.ofOption (s.read? spot)
  let d ← revised compound current d
  return (spot, d)

/-- What a step by one puts where. -/
def stepping (w : World) (s : Scene) (op : CrementOp) (target : Term) : Eval (Spot × Datum) := do
  let spot ← spot w s target
  let current ← Eval.ofOption (s.read? spot)
  return (spot, current.step op)

/-- Whether a condition holds. -/
def holds (w : World) (s : Scene) (test : Term) : Eval Bool := do
  let d ← value w s test
  let d ← Eval.ofOption d.truth?
  return d.value.truthy

/-- Whether a loop goes on. -/
def continues (w : World) (test : Option Term) (s : Scene) : Eval Bool :=
  match test with
  | none => pure true
  | some test => holds w s test

/-- What a local of a type starts with. -/
def initial (w : World) (s : Scene) (ty : Ty) (start : Option Term) : Eval Datum :=
  match start with
  | none => return .zero ty
  | some start => do
    let d ← value w s start
    Eval.ofOption (d.coerce? ty)

/-- The passes of a loop; `first` skips the test once. A pass ends the scopes that it opened, and a jump out
of `step` other than a return has no effect. -/
def passes (test : Scene → Eval Bool) (body step : Scene → Run) : Nat → Bool → Scene → Run
  | 0, _, _ => .exhausted
  | fuel + 1, first, s =>
    s.after (if first then pure true else test s) fun again s =>
      if again then
        match body s with
        | .done (.jump .break) s' => .done .next s'
        | .done (.jump .return) s' => .done (.jump .return) s'
        | .done flow s' =>
          match step (if flow = .next then s' else s'.leave s.locals.length) with
          | .done (.jump .return) s'' => .done (.jump .return) s''
          | .done _ s'' => passes test body step fuel false (s''.leave s.locals.length)
          | other => other
        | other => other
      else .done .next s

mutual
/-- Evaluate a statement. -/
def exec (w : World) (fuel : Nat) : Term → Scene → Run
  | .missing _, s => .done .next s
  | .node _ (.block statements), s => (execAll w fuel statements s).leave s.locals.length
  | .node _ (.conditional test thenBranch elseBranch), s =>
    s.after (holds w s test) fun again s =>
      (if again then exec w fuel thenBranch s else exec w fuel elseBranch s).leave s.locals.length
  | .node _ (.loop kind start test step body), s =>
    let start : Run := match start with
      | none => .done .next s
      | some start => exec w fuel start s
    let step : Scene → Run := match step with
      | none => fun s => .done .next s
      | some step => exec w fuel step
    (start.andThen (passes (continues w test) (exec w fuel body) step fuel (kind == LoopKind.doWhile))).leave s.locals.length
  | .node _ (.jump word), s => .done (.jump word) s
  | .node _ (.declare ty name start), s =>
    match name.localName? with
    | none => .stuck
    | some name => s.after (initial w s ty start) fun d s => .done .next (s.declare name d)
  | .node _ (.assign target value compound), s =>
    s.after (assignment w s target value compound) fun change s => .done .next (s.write change.1 change.2)
  | .node _ (.crement op _ target), s =>
    s.after (stepping w s op target) fun change s => .done .next (s.write change.1 change.2)
  | .node _ content, s => s.after (valueNode w s content) fun _ s => .done .next s

/-- Evaluate statements, one after another, up to the first jump. -/
def execAll (w : World) (fuel : Nat) : List Term → Scene → Run
  | [], s => .done .next s
  | t :: rest, s => (exec w fuel t s).andThen (execAll w fuel rest)
end

end Evaluate

/-- A program that is evaluated on an element comes to the given end. -/
def Term.EvaluatesTo (w : World) (program : Term) (element : ElementState) (ending : Ending) : Prop :=
  ∃ fuel, (Evaluate.exec w fuel program { element }).ending? = some ending

end Elementwise
