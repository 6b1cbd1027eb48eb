import Elementwise.Proofs.Perform.Statements

/-!
# Expressions that change nothing

If assignments and steps stand only where statements stand, expressions make native calls but change no
cell and no slot. Performing such an expression gives what evaluating it gives: it does not matter when an
operand is read.
-/

namespace Elementwise

/-- The children that a node uses as expressions. -/
def Node.operands {α : Type} : Node α → List α
  | .block _ => []
  | .conditional test _ _ => [test]
  | .loop _ _ test _ _ => test.toList
  | .declare _ _ start => start.toList
  | n => n.children

theorem Node.operands_subset {α : Type} (n : Node α) : n.operands ⊆ n.children := by
  cases n <;> simp [operands, children]

/-- The node assigns or steps. -/
def Term.isChange : Term → Bool
  | .node _ (.assign _ _ _) | .node _ (.crement _ _ _) => true
  | _ => false

/-- No expression of the node is an assignment or a step. -/
def Node.Calm (n : Node Term) : Prop := ∀ c ∈ n.operands, c.isChange = false

/-- How the result of an action on a store shows the answer of a computation: no cell and no slot changed. -/
inductive Result.Shows {α β : Type} (σ : Store) (Q : α → β → Prop) : Result α → Answer β → Prop
  | value {a : α} {c : β} {calls : List NativeCall} (h : Q a c) : Shows σ Q (.value a { σ with calls }) (.value c calls)
  | fault {reason : Fault} {calls : List NativeCall} : Shows σ Q (.fault reason { σ with calls }) (.fault reason calls)
  | stuck : Shows σ Q .stuck .stuck

/-- An action that computes without a change, whatever native calls were made. -/
def Act.Shows {α β : Type} (σ : Store) (Q : α → β → Prop) (x : Act α) (y : Eval β) : Prop :=
  ∀ calls, Result.Shows σ Q (x { σ with calls }) (y calls)

/-- A referent stands for a datum. -/
def Store.Reads (σ : Store) (h : Referent) (d : Datum) : Prop := σ.read h = d

namespace Act.Shows

variable {α β γ δ : Type} {σ : Store} {Q : α → β → Prop} {P : γ → δ → Prop}

variable {x : Act α} {y : Eval δ}

theorem pure {a : α} {c : β} (h : Q a c) : Act.Shows σ Q (Pure.pure a) (Pure.pure c) := fun _ => .value h

theorem stuck : Act.Shows σ Q Act.stuck Eval.stuck := fun _ => .stuck

theorem ofOption {r : Option α} {r' : Option β} (h : Option.Rel Q r r') :
    Act.Shows σ Q (Act.ofOption r) (Eval.ofOption r') := by
  cases h with
  | none => exact stuck
  | some h => exact pure h

theorem bind {y : Eval β} {k : α → Act γ} {l : β → Eval δ} (hx : Act.Shows σ Q x y)
    (hk : ∀ a c, Q a c → Act.Shows σ P (k a) (l c)) : Act.Shows σ P (x >>= k) (y >>= l) := by
  intro calls
  have hfirst := hx calls
  rw [Act.bind_apply, Eval.bind_apply]
  generalize x { σ with calls } = result at hfirst
  generalize y calls = answer at hfirst
  cases hfirst with
  | value h => exact hk _ _ h _
  | fault => exact .fault
  | stuck => exact .stuck

/-- An action whose result is known beforehand. -/
theorem given {c : β} {k : α → Act γ} (hx : Act.Shows σ Q x (Pure.pure c)) (hk : ∀ a, Q a c → Act.Shows σ P (k a) y) :
    Act.Shows σ P (x >>= k) y := by
  intro calls
  have hfirst := hx calls
  rw [Act.bind_apply]
  generalize x { σ with calls } = result at hfirst
  cases hfirst with
  | value h => exact hk _ h calls

/-- A result that is there is the one that was asked for. -/
theorem known {r : Option β} (hx : Act.Shows σ Q x (Eval.ofOption r)) :
    Act.Shows σ (fun a c => Q a c ∧ r = some c) x (Eval.ofOption r) := by
  intro calls
  have hfirst := hx calls
  generalize x { σ with calls } = result at hfirst
  cases r with
  | none =>
    cases hfirst
    exact .stuck
  | some c =>
    cases hfirst with
    | value h => exact .value ⟨h, rfl⟩

theorem map {y : Eval β} {k : α → γ} {P : γ → β → Prop} (hx : Act.Shows σ Q x y) (h : ∀ a c, Q a c → P (k a) c) :
    Act.Shows σ P (x >>= fun a => Pure.pure (k a)) y := by
  rw [← Eval.bind_pure y]
  exact hx.bind fun a c hc => pure (h a c hc)

/-- A referent is read. -/
theorem settle {h : Referent} {k : Datum → Act γ} (hk : Act.Shows σ P (k (σ.read h)) y) :
    Act.Shows σ P (Perform.settle h >>= k) y :=
  fun calls => hk calls

/-- Referents are read. -/
theorem settleAll {hs : List Referent} {k : List Datum → Act γ} (hk : Act.Shows σ P (k (hs.map σ.read)) y) :
    Act.Shows σ P (Perform.settleAll hs >>= k) y :=
  fun calls => hk calls

/-- A datum that may be missing. -/
theorem datum (r : Option Datum) :
    Act.Shows σ σ.Reads (Act.ofOption r >>= fun d => Pure.pure (.datum d)) (Eval.ofOption r) := by
  refine map (Q := Eq) (ofOption ?_) fun _ _ h => h
  cases r with
  | none => exact .none
  | some d => exact .some rfl

/-- A computation on the element. -/
theorem compute {h : ElementState → Eval α} : Act.Shows σ Eq (Act.compute h) (h σ.element) := by
  intro calls
  unfold Act.compute
  cases h σ.element calls with
  | value => exact .value rfl
  | fault => exact .fault
  | stuck => exact .stuck

end Act.Shows

namespace Perform

open Act (Shows)

variable {σ : Store}

/-- A conversion. -/
theorem shows_convert (h : Referent) (goal : Ty) : Shows σ σ.Reads (convert h goal) (pure ((σ.read h).convert goal)) := by
  unfold convert Datum.convert
  rw [σ.ty_read]
  split
  · exact .pure rfl
  · next hne =>
    refine .settle (.pure ?_)
    rw [σ.ty_read, if_neg hne]
    rfl

/-- A conversion to a type that the referent converts to. -/
theorem shows_coerce (h : Referent) (goal : Ty) : Shows σ σ.Reads (coerce h goal) (Eval.ofOption ((σ.read h).coerce? goal)) := by
  unfold coerce Datum.coerce?
  rw [σ.ty_read]
  split
  · exact shows_convert h goal
  · exact .stuck

/-- An integer as an index. -/
theorem shows_asIndex (h : Referent) : Shows σ σ.Reads (asIndex h) (Eval.ofOption (σ.read h).index?) := by
  unfold asIndex Datum.index?
  rw [σ.ty_read]
  split
  · exact shows_convert h .int32
  · exact .stuck

/-- A scalar as a truth value. -/
theorem shows_truth (h : Referent) : Shows σ Eq (truth h) (Eval.ofOption (σ.read h).truth?) := by
  refine .settle (.ofOption ?_)
  cases (σ.read h).truth? with
  | none => exact .none
  | some d => exact .some rfl

/-- An operator. -/
theorem shows_operate (op : BinaryOp) (l r : Referent) :
    Shows σ σ.Reads (operate op l r) (Eval.ofOption (Datum.operate? op (σ.read l) (σ.read r))) :=
  .settle (.settle (.datum _))

/-- A component. -/
theorem shows_component (container index : Referent) :
    Shows σ σ.Reads (component container index) (pure ((σ.read container).component (σ.read index))) :=
  .settle (.settle (.pure rfl))

/-- The position of a component. -/
theorem shows_position {ty : Ty} {row : Act Referent} {row' : Eval Datum} (hrow : Shows σ σ.Reads row row')
    {column : Option (Act Referent)} {column' : Option (Eval Datum)} (hcolumn : Option.Rel (Shows σ σ.Reads) column column')
    {container : Datum} (hty : container.ty = ty) :
    Shows σ σ.Reads (position pure ty row column) (Evaluate.position container row' column') := by
  subst hty
  unfold position Evaluate.position
  cases hcolumn with
  | none =>
    cases container.ty with
    | vector kind n | matrix kind n =>
      refine hrow.bind ?_
      rintro i _ rfl
      exact shows_asIndex i
    | scalar | string | void => exact .stuck
  | some hcolumn =>
    cases container.ty with
    | matrix kind n =>
      refine hrow.bind ?_
      rintro i _ rfl
      refine (shows_asIndex i).bind ?_
      rintro i _ rfl
      refine hcolumn.bind ?_
      rintro j _ rfl
      refine (shows_asIndex j).bind ?_
      rintro j _ rfl
      exact .settle (.settle (.pure rfl))
    | vector | scalar | string | void => exact .stuck

end Perform

namespace Names

/-- The visible locals with what they hold, innermost first. -/
def locals (names : Names) (σ : Store) : List (String × Datum) :=
  names.scopes.flatten.map fun entry => (entry.1, σ.cell entry.2.1 entry.2.2)

/-- What a local holds. -/
theorem lookup_locals (names : Names) (σ : Store) (name : String) :
    (names.locals σ).lookup name = (names.find? name).map fun cell => σ.cell cell.1 cell.2 := by
  have hscope (scope : List (String × Nat × Ty)) :
      (scope.map fun entry => (entry.1, σ.cell entry.2.1 entry.2.2)).lookup name =
        (scope.lookup name).map fun cell => σ.cell cell.1 cell.2 := by
    induction scope with
    | nil => rfl
    | cons entry scope ih =>
      rw [List.map_cons, List.lookup_cons, List.lookup_cons]
      split
      · rfl
      · exact ih
  unfold locals find?
  induction names.scopes with
  | nil => rfl
  | cons scope scopes ih =>
    rw [List.flatten_cons, List.map_append, List.lookup_append, hscope, List.findSome?_cons, ih]
    cases scope.lookup name <;> rfl

end Names

/-- The scene of a store where names are visible. -/
def Store.scene (σ : Store) (names : Names) : Scene := ⟨names.locals σ, σ.element, σ.calls⟩

namespace Perform

open Act (Shows)

variable {σ : Store}

variable {w : World}

/-- An expression that changes nothing is performed as it is evaluated. -/
def Quiet (w : World) (t : Term) : Prop :=
  ∀ (names : Names) (σ : Store), Shows σ σ.Reads (referent .lazy w names t) (Evaluate.value w (σ.scene names) t)

/-- Expressions that change nothing, one by one. -/
theorem shows_referents {ts : List Term} (h : ∀ t ∈ ts, Quiet w t) (names : Names) (σ : Store) :
    Shows σ (fun hs ds => hs.map σ.read = ds) (referents .lazy w names ts) (Evaluate.values w (σ.scene names) ts) := by
  induction ts with
  | nil => exact .pure rfl
  | cons t ts ih =>
    rw [List.forall_mem_cons] at h
    refine (h.1 names σ).bind ?_
    rintro a _ rfl
    refine (ih h.2).bind ?_
    rintro as _ rfl
    exact .pure rfl

/-- A call. -/
theorem shows_call (name : String) (hs : List Referent) :
    Shows σ σ.Reads (call name hs) (Evaluate.call σ.element name (hs.map σ.read)) :=
  .settleAll (Shows.compute.map fun _ _ h => h)

/-- The column of a position, if there is one. -/
theorem shows_column (column : Option Term) (h : ∀ t, column = some t → Quiet w t) (names : Names) (σ : Store) :
    Option.Rel (Shows σ σ.Reads) (column.map (referent .lazy w names)) (column.map (Evaluate.value w (σ.scene names))) := by
  cases column with
  | none => exact .none
  | some t => exact .some (h t rfl names σ)

/-- A node whose children change nothing, and that is no change itself. -/
theorem shows_referentNode {content : Node Term} (hchange : (Term.node 0 content).isChange = false)
    (h : ∀ c ∈ content.children, c.isChange = false → Quiet w c) (hcalm : content.Calm) (names : Names) (σ : Store) :
    Shows σ σ.Reads (referentNode .lazy w names content) (Evaluate.valueNode w (σ.scene names) content) := by
  cases content with
  | value | external => exact .pure rfl
  | localName name =>
    refine Shows.map (Q := fun (cell : Nat × Ty) d => σ.cell cell.1 cell.2 = d) (.ofOption ?_) fun _ _ h => h
    rw [Store.scene, names.lookup_locals]
    cases names.find? name with
    | none => exact .none
    | some cell => exact .some rfl
  | field name ty inferred writable =>
    rw [referentNode, Evaluate.valueNode, entry, Scene.field?]
    cases w.registry.get? name with
    | none => exact .stuck
    | some e => exact fun calls => .value rfl
  | binary op left right =>
    have hleft := h left (by simp) (hcalm left (by simp [Node.operands])) names σ
    have hright := h right (by simp) (hcalm right (by simp [Node.operands])) names σ
    rw [referentNode, Evaluate.valueNode]
    by_cases hop : op.opClass = .logical
    · simp only [if_pos hop]
      refine hleft.bind ?_
      rintro l _ rfl
      refine (shows_truth l).bind ?_
      rintro d _ rfl
      split
      · refine hright.bind ?_
        rintro r _ rfl
        exact (shows_truth r).map fun _ _ h => h
      · exact .pure rfl
    · simp only [if_neg hop, Generate.pass_lazy, pure_bind]
      refine hleft.bind ?_
      rintro l _ rfl
      refine hright.bind ?_
      rintro r _ rfl
      exact shows_operate op l r
  | unary op operand =>
    have hoperand := h operand (by simp) (hcalm operand (by simp [Node.operands])) names σ
    refine hoperand.bind ?_
    rintro d _ rfl
    exact .settle (.datum _)
  | cast ty operand =>
    have hoperand := h operand (by simp) (hcalm operand (by simp [Node.operands])) names σ
    refine hoperand.bind ?_
    rintro d _ rfl
    exact shows_coerce d ty
  | call name args =>
    have hargs := shows_referents (fun t ht => h t ht (hcalm t ht)) names σ
    rw [referentNode, Evaluate.valueNode]
    cases Evaluate.lookup? name args with
    | some host => exact .pure rfl
    | none =>
      refine hargs.bind ?_
      rintro hs _ rfl
      exact shows_call name hs
  | pack items =>
    have hitems := shows_referents (fun t ht => h t ht (hcalm t ht)) names σ
    refine hitems.bind ?_
    rintro hs _ rfl
    exact .settleAll (.datum _)
  | unpack array row column =>
    have harray := h array (by simp) (hcalm array (by simp [Node.operands])) names σ
    have hrow := h row (by simp) (hcalm row (by simp [Node.operands])) names σ
    have hcolumn := shows_column column (fun t ht => h t (by simp [ht])
      (hcalm t (by simp [Node.operands, ht]))) names σ
    have hvalue : Evaluate.valueNode w (σ.scene names) (.unpack array row column) = (do
        let d ← Evaluate.value w (σ.scene names) array
        let i ← Evaluate.position d (Evaluate.value w (σ.scene names) row) (column.map (Evaluate.value w (σ.scene names)))
        return d.component i) := by cases column <;> rfl
    rw [hvalue]
    change Shows σ σ.Reads (referent .lazy w names (.node 0 (.unpack array row column))) _
    rw [referent_unpack, Generate.pass_lazy]
    refine harray.bind ?_
    rintro container _ rfl
    refine (shows_position hrow hcolumn (σ.ty_read container)).bind ?_
    rintro i _ rfl
    exact shows_component container i
  | crement | assign => cases hchange
  | block | conditional | loop | jump | declare => exact .stuck

/-- An expression in which nothing is assigned or stepped changes nothing. -/
theorem quiet_of_calm (w : World) (t : Term) (hchange : t.isChange = false) (hcalm : t.Everywhere Node.Calm) :
    Quiet w t := by
  induction t using Term.children_induction with
  | missing id => exact fun names σ => .stuck
  | node id content ih =>
    have hchange' : (Term.node 0 content).isChange = false := by
      cases content <;> first | rfl | exact hchange
    exact fun names σ => shows_referentNode hchange' (fun c hc hchange => ih c hc hchange (hcalm.below hc)) hcalm.here names σ

end Perform

end Elementwise
