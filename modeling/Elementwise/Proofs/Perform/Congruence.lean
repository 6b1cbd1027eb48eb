import Elementwise.Proofs.Compile.Lowering
import Elementwise.Proofs.Perform.Statements

/-!
# Parts that act alike can replace each other

Two actions are alike if they end in the same way on stores that have the same cells and the same element,
and the native calls that they have made stay related. Native calls are only added, never looked at, so
every action is like itself. Terms whose children act alike act alike.
-/

namespace Elementwise

/-- A relation of native calls that is kept when the same call is added on both sides. -/
class Additive (R : List NativeCall → List NativeCall → Prop) : Prop where
  cons : ∀ c calls calls', R calls calls' → R (c :: calls) (c :: calls')

instance : Additive Eq := ⟨fun _ _ _ h => congrArg _ h⟩
instance : Additive fun _ _ => True := ⟨fun _ _ _ _ => trivial⟩

section

variable (R : List NativeCall → List NativeCall → Prop) {α β : Type}

/-- Computations that end in the same way, with related native calls. -/
inductive Answer.Alike : Answer α → Answer α → Prop
  | value {a : α} {calls calls' : List NativeCall} (h : R calls calls') : Alike (.value a calls) (.value a calls')
  | fault {reason : Fault} {calls calls' : List NativeCall} (h : R calls calls') :
      Alike (.fault reason calls) (.fault reason calls')
  | stuck : Alike .stuck .stuck

/-- A computation that does not look at the native calls that were made. -/
class Eval.Steady (x : Eval α) : Prop where
  steady : ∀ calls calls', R calls calls' → Answer.Alike R (x calls) (x calls')

/-- Stores that differ at most in their native calls. -/
structure Store.Alike (s s' : Store) : Prop where
  cells : s'.cells = s.cells
  element : s'.element = s.element
  calls : R s.calls s'.calls

/-- Results that differ at most in the native calls. -/
inductive Result.Alike : Result α → Result α → Prop
  | value {a : α} {s s' : Store} (h : s.Alike R s') : Alike (.value a s) (.value a s')
  | fault {reason : Fault} {s s' : Store} (h : s.Alike R s') : Alike (.fault reason s) (.fault reason s')
  | stuck : Alike .stuck .stuck

/-- Actions that end in the same way. -/
class Act.Alike (x y : Act α) : Prop where
  alike : ∀ s s', s.Alike R s' → (x s).Alike R (y s')

/-- Courses that differ at most in the native calls. -/
inductive Course.Alike : Course → Course → Prop
  | done {flow : Flow} {s s' : Store} (h : s.Alike R s') : Alike (.done flow s) (.done flow s')
  | fault {reason : Fault} {s s' : Store} (h : s.Alike R s') : Alike (.fault reason s) (.fault reason s')
  | stuck : Alike .stuck .stuck
  | exhausted : Alike .exhausted .exhausted

end

variable {R : List NativeCall → List NativeCall → Prop}

namespace Eval.Steady

variable {α β : Type}

instance (a : α) : Steady R (pure a) := ⟨fun _ _ h => .value h⟩

instance (x : Eval α) (k : α → Eval β) [hx : Steady R x] [hk : ∀ a, Steady R (k a)] : Steady R (x >>= k) where
  steady calls calls' h := by
    have hfirst := hx.steady calls calls' h
    change Answer.Alike R
      (match x calls with
        | .value a calls => k a calls
        | .fault reason calls => .fault reason calls
        | .stuck => .stuck)
      (match x calls' with
        | .value a calls => k a calls
        | .fault reason calls => .fault reason calls
        | .stuck => .stuck)
    generalize x calls = answer at hfirst
    generalize x calls' = answer' at hfirst
    cases hfirst with
    | value h => exact (hk _).steady _ _ h
    | fault h => exact .fault h
    | stuck => exact .stuck

instance : Steady R (Eval.stuck : Eval α) := ⟨fun _ _ _ => .stuck⟩

instance (r : Option α) : Steady R (Eval.ofOption r) := by
  cases r <;> (unfold Eval.ofOption; infer_instance)

instance [hR : Additive R] (name : String) (body : NativeBody) (args : List Datum) (ret : Ty) :
    Steady R (Eval.native name body args ret) where
  steady calls calls' h := by
    unfold Eval.native
    dsimp only
    cases body (args.map Datum.value) with
    | some result => exact .value (hR.cons _ _ _ h)
    | none => exact .fault (hR.cons _ _ _ h)

instance [Additive R] (v : Datum) : Steady R (Builtin.lengthOf v) := by unfold Builtin.lengthOf; infer_instance

instance [Additive R] (builtin : Builtin) (element : ElementState) (args : List Datum) :
    Steady R (builtin.apply element args) := by
  unfold Builtin.apply
  split <;> infer_instance

instance [Additive R] (element : ElementState) (name : String) (args : List Datum) :
    Steady R (Evaluate.call element name args) := by
  unfold Evaluate.call
  split
  · infer_instance
  · split <;> infer_instance

end Eval.Steady

namespace Store.Alike

variable {s s' : Store}

/-- The same is read. -/
theorem read_eq (h : s.Alike R s') (referent : Referent) : s'.read referent = s.read referent := by
  cases referent with
  | cell i ty => simp only [Store.read, Store.cell, h.cells]
  | datum d => rfl

/-- The same is loaded. -/
theorem load_eq (h : s.Alike R s') (base : Base) : s'.load base = s.load base := by
  cases base with
  | cell i ty => rfl
  | slot slot ty => simp only [Store.load, Store.slot, h.element]

theorem setCell (h : s.Alike R s') (i : Nat) (v : Value) : (s.setCell i v).Alike R (s'.setCell i v) :=
  ⟨by simp only [Store.setCell, h.cells], h.element, h.calls⟩

/-- A base is set on both sides. -/
theorem set (h : s.Alike R s') (base : Base) (d : Datum) : (s.set base d).Alike R (s'.set base d) := by
  cases base with
  | cell i ty => exact h.setCell i d.value
  | slot slot ty => exact ⟨h.cells, by simp only [Store.set, h.element], h.calls⟩

end Store.Alike

namespace Act.Alike

variable {α β : Type}

instance (a : α) : Alike R (pure a) (pure a) := ⟨fun _ _ h => .value h⟩

instance (x y : Act α) (k k' : α → Act β) [hx : Alike R x y] [hk : ∀ a, Alike R (k a) (k' a)] :
    Alike R (x >>= k) (y >>= k') where
  alike s s' h := by
    have hfirst := hx.alike s s' h
    rw [Act.bind_apply, Act.bind_apply]
    generalize x s = result at hfirst
    generalize y s' = result' at hfirst
    cases hfirst with
    | value h => exact (hk _).alike _ _ h
    | fault h => exact .fault h
    | stuck => exact .stuck

theorem bind {x y : Act α} {k k' : α → Act β} [Alike R x y] (hk : ∀ a, Alike R (k a) (k' a)) :
    Alike R (x >>= k) (y >>= k') :=
  inferInstance

instance (p : Prop) [Decidable p] (x y x' y' : Act α) [hx : Alike R x x'] [hy : Alike R y y'] :
    Alike R (if p then x else y) (if p then x' else y') := by
  split
  · exact hx
  · exact hy

instance : Alike R (Act.stuck : Act α) Act.stuck := ⟨fun _ _ _ => .stuck⟩

instance (r : Option α) : Alike R (Act.ofOption r) (Act.ofOption r) := by
  cases r <;> (unfold Act.ofOption; infer_instance)

theorem look {f : Store → α} (hf : ∀ s s', s.Alike R s' → f s' = f s) : Alike R (Act.look f) (Act.look f) where
  alike s s' h := by
    rw [Act.look, Act.look, hf s s' h]
    exact .value h

theorem change {f : Store → Store} (hf : ∀ s s', s.Alike R s' → (f s).Alike R (f s')) :
    Alike R (Act.change f) (Act.change f) := ⟨fun s s' h => .value (hf s s' h)⟩

instance (f : ElementState → Eval α) [hf : ∀ element, Eval.Steady R (f element)] :
    Alike R (Act.compute f) (Act.compute f) where
  alike s s' h := by
    have hanswer := (hf s.element).steady s.calls s'.calls h.calls
    rw [Act.compute, Act.compute, h.element]
    generalize f s.element s.calls = answer at hanswer
    generalize f s.element s'.calls = answer' at hanswer
    cases hanswer with
    | value hcalls => exact .value ⟨h.cells, rfl, hcalls⟩
    | fault hcalls => exact .fault ⟨h.cells, rfl, hcalls⟩
    | stuck => exact .stuck

end Act.Alike

namespace Perform

open Act (Alike)

instance (h : Referent) : Alike R (settle h) (settle h) := .look fun _ _ hs => hs.read_eq h
instance (hs : List Referent) : Alike R (settleAll hs) (settleAll hs) :=
  .look fun _ _ h => List.map_congr_left fun referent _ => h.read_eq referent
instance (δ : Discipline) (h : Referent) : Alike R (pass δ h) (pass δ h) := by
  unfold pass
  rw [map_eq_pure_bind]
  infer_instance
instance (h : Referent) (goal : Ty) : Alike R (convert h goal) (convert h goal) := by unfold convert; infer_instance
instance (h : Referent) (goal : Ty) : Alike R (coerce h goal) (coerce h goal) := by unfold coerce; infer_instance
instance (h : Referent) : Alike R (asIndex h) (asIndex h) := by unfold asIndex; infer_instance
instance (h : Referent) : Alike R (truth h) (truth h) := by unfold truth; infer_instance
instance (op : BinaryOp) (l r : Referent) : Alike R (operate op l r) (operate op l r) := by unfold operate; infer_instance
instance (container index : Referent) : Alike R (component container index) (component container index) := by
  unfold component; infer_instance
instance (base : Base) : Alike R (Act.look fun s => s.load base) (Act.look fun s => s.load base) :=
  .look fun _ _ h => h.load_eq base
instance (slot : Nat) (ty : Ty) :
    Alike R (Act.look fun s => Referent.datum (s.slot slot ty)) (Act.look fun s => Referent.datum (s.slot slot ty)) :=
  .look fun _ _ h => h.load_eq (.slot slot ty)
instance (base : Base) (d : Datum) : Alike R (Act.change fun s => s.set base d) (Act.change fun s => s.set base d) :=
  .change fun _ _ h => h.set base d
instance (δ : Discipline) (base : Base) (loaded : Referent) : Alike R (container δ base loaded) (container δ base loaded) := by
  unfold container; infer_instance
instance (δ : Discipline) (site : Site) : Alike R (load δ site) (load δ site) := by
  cases site <;> (unfold load; infer_instance)
instance (δ : Discipline) (site : Site) (h : Referent) : Alike R (store δ site h) (store δ site h) := by
  cases site <;> (unfold store; infer_instance)
instance (δ : Discipline) (compound : Option BinaryOp) (site : Site) (h : Referent) :
    Alike R (assign δ compound site h) (assign δ compound site h) := by
  cases compound <;> (unfold assign; infer_instance)
instance (δ : Discipline) (op : CrementOp) (post : Bool) (site : Site) :
    Alike R (step δ op post site) (step δ op post site) := by unfold step; infer_instance
instance [Additive R] (name : String) (hs : List Referent) : Alike R (call name hs) (call name hs) := by
  unfold call; infer_instance

/-- The position of a component, if the parts of it are alike. -/
theorem alike_position (wait : Referent → Act Referent) [∀ h, Alike R (wait h) (wait h)] (ty : Ty) {row row' : Act Referent}
    [Alike R row row'] {column column' : Option (Act Referent)} (hcolumn : Option.Rel (Alike R) column column') :
    Alike R (position wait ty row column) (position wait ty row' column') := by
  cases hcolumn with
  | none => cases ty <;> (unfold position; infer_instance)
  | some h => cases ty <;> (unfold position; infer_instance)

end Perform

/-- Terms that act alike wherever they stand. -/
structure Term.Alike (R : List NativeCall → List NativeCall → Prop) (δ : Discipline) (w : World) (t t' : Term) : Prop where
  localName? : t'.localName? = t.localName?
  text? : t'.text? = t.text?
  after : ∀ names : Names, names.after t' = names.after t
  referent : ∀ names, Act.Alike R (Perform.referent δ w names t) (Perform.referent δ w names t')
  place : ∀ names, Act.Alike R (Perform.place δ w names t) (Perform.place δ w names t')
  exec : ∀ fuel names s s', s.Alike R s' →
    (Perform.exec δ w fuel t names s).Alike R (Perform.exec δ w fuel t' names s')

namespace Course.Alike

theorem andThen {c c' : Course} {k k' : Store → Course} (h : c.Alike R c')
    (hk : ∀ s s', s.Alike R s' → (k s).Alike R (k' s')) : (c.andThen k).Alike R (c'.andThen k') := by
  cases h with
  | @done flow s s' h =>
    cases flow with
    | next => exact hk s s' h
    | jump word => exact .done h
  | fault h => exact .fault h
  | stuck => exact .stuck
  | exhausted => exact .exhausted

/-- Go on after actions that are alike. -/
theorem after {α : Type} {x y : Act α} (hx : Act.Alike R x y) {s s' : Store} (h : s.Alike R s')
    {k k' : α → Store → Course} (hk : ∀ a s s', s.Alike R s' → (k a s).Alike R (k' a s')) :
    ((x s).andThen k).Alike R ((y s').andThen k') := by
  have hfirst := hx.alike s s' h
  generalize x s = result at hfirst
  generalize y s' = result' at hfirst
  cases hfirst with
  | value h => exact hk _ _ _ h
  | fault h => exact .fault h
  | stuck => exact .stuck

/-- What follows the steps of two loops is alike. -/
theorem goesOn {step step' again again' : Store → Course}
    (hstep : ∀ s s', s.Alike R s' → (step s).Alike R (step' s'))
    (hagain : ∀ s s', s.Alike R s' → (again s).Alike R (again' s')) {s s' : Store} (h : s.Alike R s') :
    Course.Alike R
      (match step s with
        | .done (.jump .return) s => .done (.jump .return) s
        | .done _ s => again s
        | other => other)
      (match step' s' with
        | .done (.jump .return) s => .done (.jump .return) s
        | .done _ s => again' s
        | other => other) := by
  have hrun := hstep s s' h
  generalize step s = c at hrun
  generalize step' s' = c' at hrun
  cases hrun with
  | fault h => exact .fault h
  | stuck => exact .stuck
  | exhausted => exact .exhausted
  | @done flow s s' h =>
    rcases flow with _ | _ | _ | _
    · exact hagain s s' h
    · exact .done h
    · exact hagain s s' h
    · exact hagain s s' h

/-- The passes of a loop are alike if its parts are. -/
theorem passes {test test' : Act Bool} {body body' step step' : Store → Course} (htest : Act.Alike R test test')
    (hbody : ∀ s s', s.Alike R s' → (body s).Alike R (body' s'))
    (hstep : ∀ s s', s.Alike R s' → (step s).Alike R (step' s')) (fuel : Nat) (first : Bool) {s s' : Store}
    (h : s.Alike R s') :
    (Perform.passes test body step fuel first s).Alike R (Perform.passes test' body' step' fuel first s') := by
  induction fuel generalizing first s s' with
  | zero => exact .exhausted
  | succ fuel ih =>
    refine after inferInstance h fun again s s' h => ?_
    cases again with
    | false => exact .done h
    | true =>
      have hrun := hbody s s' h
      generalize body s = c at hrun
      generalize body' s' = c' at hrun
      cases hrun with
      | fault h => exact .fault h
      | stuck => exact .stuck
      | exhausted => exact .exhausted
      | @done flow s s' h =>
        rcases flow with _ | _ | _ | _
        · exact goesOn hstep (fun _ _ h => ih false h) h
        · exact .done h
        · exact .done h
        · exact goesOn hstep (fun _ _ h => ih false h) h

end Course.Alike

namespace Perform

open Act (Alike)

variable {δ : Discipline} {w : World}

section

variable {ts ts' : List Term} (h : List.Forall₂ (Term.Alike R δ w) ts ts')

include h

/-- Expressions that act alike, one by one. -/
theorem alike_referents (names : Names) : Alike R (referents δ w names ts) (referents δ w names ts') := by
  induction h with
  | nil =>
    rw [referents]
    infer_instance
  | cons ht _ ih =>
    have := ht.referent names
    rw [referents, referents]
    infer_instance

/-- Statements that act alike, one by one. -/
theorem alike_execAll (fuel : Nat) (names : Names) {s s' : Store} (hs : s.Alike R s') :
    (execAll δ w fuel ts names s).Alike R (execAll δ w fuel ts' names s') := by
  induction h generalizing names s s' with
  | nil => exact .done hs
  | cons ht _ ih =>
    rw [execAll, execAll, ht.after]
    exact (ht.exec fuel names s s' hs).andThen fun s s' hs => ih _ hs

/-- Statements that act alike declare the same names. -/
theorem afterAll_eq (names : Names) : names.afterAll ts' = names.afterAll ts := by
  induction h generalizing names with
  | nil => rfl
  | cons ht _ ih => rw [Names.afterAll, Names.afterAll, ht.after, ih]

/-- Arguments that act alike ask for the same value of the host. -/
theorem lookup?_eq (function : String) : Evaluate.lookup? function ts' = Evaluate.lookup? function ts := by
  cases h with
  | nil => rfl
  | cons ht hts =>
    cases hts with
    | nil => simp only [Evaluate.lookup?, ht.text?]
    | cons => rfl

end

section

variable {part part' : Option Term} (h : Option.Rel (Term.Alike R δ w) part part')

include h

/-- Columns that act alike, if there is one. -/
theorem alike_column (names : Names) :
    Option.Rel (Alike R) (part.map (referent δ w names)) (part'.map (referent δ w names)) := by
  cases h with
  | none => exact .none
  | some h => exact .some (h.referent names)

/-- Statements that act alike declare the same names, if there is one. -/
theorem after?_eq (names : Names) : names.after? part' = names.after? part := by
  cases h with
  | none => rfl
  | some h => exact h.after names

/-- Statements that act alike, if there is one. -/
theorem alike_exec? (fuel : Nat) (names : Names) (s s' : Store) (hs : s.Alike R s') :
    (exec? δ w fuel part names s).Alike R (exec? δ w fuel part' names s') := by
  cases h with
  | none => exact .done hs
  | some h => exact h.exec fuel names s s' hs

/-- Conditions that act alike, if there is one. -/
theorem alike_continues (names : Names) : Alike R (continues δ w names part) (continues δ w names part') := by
  cases h with
  | none => exact inferInstanceAs (Alike R (pure true) (pure true))
  | some h =>
    have := h.referent names
    simp only [continues, holds]
    infer_instance

/-- Initial values that act alike, if there is one. -/
theorem alike_initial (names : Names) (ty : Ty) : Alike R (initial δ w names ty part) (initial δ w names ty part') := by
  cases h with
  | none => exact inferInstanceAs (Alike R (pure _) (pure _))
  | some h =>
    have := h.referent names
    simp only [initial]
    infer_instance

end

section

variable [Additive R] {n n' : Node Term} (h : n.Rel (Term.Alike R δ w) n')

include h

/-- A node whose children act alike acts alike. -/
theorem alike_referentNode (names : Names) : Alike R (referentNode δ w names n) (referentNode δ w names n') := by
  cases h with
  | binary hl hr =>
    have := hl.referent names
    have := hr.referent names
    rw [referentNode, referentNode]
    infer_instance
  | unary h | cast h =>
    have := h.referent names
    rw [referentNode, referentNode]
    infer_instance
  | crement h =>
    have := h.place names
    rw [referentNode, referentNode]
    infer_instance
  | assign htarget hvalue =>
    have := htarget.place names
    have := hvalue.referent names
    rw [referentNode, referentNode]
    infer_instance
  | call h =>
    have := alike_referents h names
    rw [referentNode, referentNode, lookup?_eq h]
    split <;> infer_instance
  | pack h =>
    have := alike_referents h names
    rw [referentNode, referentNode]
    infer_instance
  | @unpack array row column array' row' column' harray hrow hcolumn =>
    have := harray.referent names
    have := hrow.referent names
    have (ty : Ty) : Alike R (position (pass δ) ty (referent δ w names row) _)
        (position (pass δ) ty (referent δ w names row') _) := alike_position (pass δ) ty (alike_column hcolumn names)
    change Alike R (referent δ w names (.node 0 (.unpack array row column)))
      (referent δ w names (.node 0 (.unpack array' row' column')))
    rw [referent_unpack, referent_unpack]
    infer_instance
  | value | external => exact inferInstanceAs (Alike R (pure _) (pure _))
  | localName | field =>
    simp only [referentNode, local?, entry]
    infer_instance
  | block | conditional | loop | jump | declare => exact inferInstanceAs (Alike R Act.stuck Act.stuck)

omit [Additive R] in
/-- A node whose children act alike stands for the same site. -/
theorem alike_place (id id' : NodeId) (names : Names) :
    Alike R (place δ w names (.node id n)) (place δ w names (.node id' n')) := by
  cases h with
  | @unpack array row column array' row' column' harray hrow hcolumn =>
    have := harray.place names
    have := hrow.referent names
    have (ty : Ty) : Alike R (position (pass δ) ty (referent δ w names row) _)
        (position (pass δ) ty (referent δ w names row') _) := alike_position (pass δ) ty (alike_column hcolumn names)
    rw [place_unpack, place_unpack]
    refine .bind fun site => ?_
    cases site <;> infer_instance
  | localName | field =>
    simp only [place, local?, entry]
    infer_instance
  | _ => exact inferInstanceAs (Alike R Act.stuck Act.stuck)

omit [Additive R] in
/-- A node whose children act alike declares the same names. -/
theorem after_eq (id id' : NodeId) (names : Names) : names.after (.node id' n') = names.after (.node id n) := by
  cases h with
  | block h => rw [Names.after, Names.after, afterAll_eq h]
  | conditional _ hthen helse => rw [Names.after, Names.after, hthen.after, helse.after]
  | loop hstart _ hstep hbody =>
    rw [Names.after_loop, Names.after_loop, after?_eq hstart, after?_eq hstep, hbody.after]
  | declare hname => rw [Names.after, Names.after, hname.localName?]
  | _ => rfl

/-- A node whose children act alike takes the same course. -/
theorem alike_exec (id id' : NodeId) (fuel : Nat) (names : Names) {s s' : Store} (hs : s.Alike R s') :
    (exec δ w fuel (.node id n) names s).Alike R (exec δ w fuel (.node id' n') names s') := by
  have hnode := alike_referentNode h names
  cases h with
  | block h => exact alike_execAll h fuel names.enter hs
  | @conditional test _ _ test' _ _ htest hthen helse =>
    have := htest.referent names
    rw [exec, exec, hthen.after]
    have hholds : Alike R (holds δ w names test) (holds δ w names test') := by
      unfold holds
      infer_instance
    refine .after hholds hs fun yes s s' hs => ?_
    cases yes with
    | true => exact hthen.exec fuel names s s' hs
    | false => exact helse.exec fuel _ s s' hs
  | loop hstart htest hstep hbody =>
    rw [exec_loop, exec_loop, after?_eq hstart, hbody.after]
    refine (alike_exec? hstart fuel names.enter s s' hs).andThen fun s s' hs => ?_
    exact .passes (alike_continues htest _) (fun s s' hs => hbody.exec fuel _ s s' hs) (alike_exec? hstep fuel _) fuel _ hs
  | declare hname hstart =>
    rw [exec, exec, hname.localName?]
    split
    · exact .stuck
    · exact .after (alike_initial hstart names _) hs fun d s s' hs => .done (hs.setCell names.next d.value)
  | jump => exact .done hs
  | _ => exact .after hnode hs fun _ s s' hs => .done hs

end

end Perform

namespace Term.Alike

variable [Additive R] {δ : Discipline} {w : World}

/-- Nodes of one shape whose children act alike act alike. -/
theorem node {id id' : NodeId} {content content' : Node Term} (hshape : content.shape = content'.shape)
    (h : ∀ c c', (c, c') ∈ content.children.zip content'.children → Term.Alike R δ w c c') :
    Term.Alike R δ w (.node id content) (.node id' content') := by
  have hrel := Node.rel_of_shape_eq hshape h
  refine ⟨?_, ?_, Perform.after_eq hrel id id', Perform.alike_referentNode hrel, Perform.alike_place hrel id id',
    fun fuel names s s' hs => Perform.alike_exec hrel id id' fuel names hs⟩
  · cases hrel <;> rfl
  · cases hrel with
    | @value literal => cases literal <;> rfl
    | _ => rfl

theorem refl (t : Term) : Term.Alike R δ w t t := by
  induction t using Term.children_induction with
  | missing id =>
    refine ⟨rfl, rfl, fun _ => rfl, fun names => ?_, fun names => ?_, fun fuel names s s' hs => .done hs⟩
    · exact inferInstanceAs (Act.Alike R Act.stuck Act.stuck)
    · exact inferInstanceAs (Act.Alike R Act.stuck Act.stuck)
  | node id content ih =>
    refine node rfl fun c c' hc => ?_
    obtain ⟨i, hi, heq⟩ := List.getElem_of_mem hc
    rw [List.getElem_zip] at heq
    obtain ⟨rfl, rfl⟩ := Prod.mk.inj heq
    exact ih _ (List.getElem_mem _)

end Term.Alike

/-- Nothing differs. -/
theorem Store.Alike.eq {s s' : Store} (h : s.Alike Eq s') : s' = s := by
  obtain ⟨hcells, helement, hcalls⟩ := h
  cases s
  cases s'
  simp_all

/-- Nothing differs. -/
theorem Course.Alike.eq {c c' : Course} (h : c.Alike Eq c') : c' = c := by
  cases h with
  | done h | fault h => rw [h.eq]
  | stuck | exhausted => rfl

/-- Lowering keeps what a term does. -/
theorem Lowers.alike {t t' : Term} (h : Lowers t t') (δ : Discipline) (w : World) : t.Alike Eq δ w t' := by
  induction h with
  | @missing id id' =>
    refine ⟨rfl, rfl, fun _ => rfl, fun names => ?_, fun names => ?_, fun fuel names s s' hs => ?_⟩
    · exact inferInstanceAs (Act.Alike Eq Act.stuck Act.stuck)
    · exact inferInstanceAs (Act.Alike Eq Act.stuck Act.stuck)
    · exact .done hs
  | @lookup id id' argId function name ty hty =>
    have hreferent (names : Names) : Perform.referentNode δ w names (.call function [.node argId (.value (.string name))])
        = Perform.referentNode δ w names (.external name ty) := by
      simp [Perform.referentNode, Evaluate.lookup?, Term.text?, hty]
    have halike (names : Names) : Act.Alike Eq
        (Perform.referentNode δ w names (.call function [.node argId (.value (.string name))]))
        (Perform.referentNode δ w names (.external name ty)) := by
      rw [hreferent]
      exact inferInstanceAs (Act.Alike Eq (pure _) (pure _))
    exact ⟨rfl, rfl, fun _ => rfl, halike, fun _ => inferInstanceAs (Act.Alike Eq Act.stuck Act.stuck),
      fun fuel names s s' hs => .after (halike names) hs fun _ s s' hs => .done hs⟩
  | node hshape _ ih => exact .node hshape ih

/-- A lowered program takes the same course. -/
theorem Lowers.exec_eq {t t' : Term} (h : Lowers t t') (δ : Discipline) (w : World) (fuel : Nat) (element : ElementState) :
    Perform.exec δ w fuel t' {} { element } = Perform.exec δ w fuel t {} { element } :=
  ((h.alike δ w).exec fuel {} { element } { element } ⟨rfl, rfl, rfl⟩).eq

end Elementwise
