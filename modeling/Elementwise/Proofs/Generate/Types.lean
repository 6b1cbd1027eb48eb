import Elementwise.Compile.Generate
import Elementwise.Proofs.Value.Typing

/-!
# The types of generated operations

What generation computes types with: the types of operands, results and arrays are regular again,
operands convert to the type an operator computes in, and its result has the type that is computed
for it.
-/

namespace Elementwise

namespace Ty

variable {a b ty : Ty}

theorem convertsTo_refl (ty : Ty) : ty.convertsTo ty = true := by simp [convertsTo]

/-- Scalars convert to all types of scalars. -/
theorem convertsTo_of_isScalar {goal : Ty} (h : ty.isScalar = true) (hgoal : goal.isNumeric = true) :
    ty.convertsTo goal = true := by
  cases ty with
  | scalar k =>
    cases goal with
    | scalar | vector | matrix => simp [convertsTo]
    | string | void => cases hgoal
  | _ => cases h

theorem convertsTo_scalar (h : ty.isScalar = true) (kind : ScalarKind) : ty.convertsTo (.scalar kind) = true :=
  convertsTo_of_isScalar h rfl

theorem isScalar_of_isIntegerScalar (h : ty.isIntegerScalar = true) : ty.isScalar = true := by
  cases ty <;> first | rfl | cases h

/-- Two types convert to what they have in common. -/
theorem convertsTo_common? {c : Ty} (h : common? a b = some c) : a.convertsTo c = true ∧ b.convertsTo c = true := by
  cases a <;> cases b <;> simp only [common?, Option.ite_none_right_eq_some, Option.some.injEq, reduceCtorEq] at h
  all_goals first | subst h | obtain ⟨rfl, rfl⟩ := h
  all_goals simp [convertsTo, withElement]

/-- The common type of two regular types is regular, and both convert to it. -/
theorem common?_eq_some {c : Ty} (h : common? a b = some c) (ha : a.Regular) (hb : b.Regular) :
    c.Regular ∧ a.convertsTo c = true ∧ b.convertsTo c = true := by
  refine ⟨?_, convertsTo_common? h⟩
  have hpromote {P : ScalarKind → Prop} {k k' : ScalarKind} (hk : P k) (hk' : P k') : P (k.promote k') := by
    rcases k.promote_cases k' with hcase | hcase <;> rwa [hcase]
  cases a with
  | string => cases b <;> first | (obtain rfl := Option.some.inj h; trivial) | cases h
  | void => cases h
  | scalar k =>
    cases b with
    | scalar k' => obtain rfl := Option.some.inj h; trivial
    | vector k' n => obtain rfl := Option.some.inj h; exact ⟨ScalarKind.component_component _, hb.2⟩
    | matrix k' n => obtain rfl := Option.some.inj h; exact ⟨ScalarKind.entry_entry _, hb.2⟩
    | _ => cases h
  | vector k n =>
    cases b with
    | scalar k' => obtain rfl := Option.some.inj h; exact ⟨ScalarKind.component_component _, ha.2⟩
    | vector k' n' =>
      obtain ⟨-, h⟩ := Option.ite_none_right_eq_some.mp h
      exact Option.some.inj h ▸ ⟨hpromote (P := fun k => k.component = k) ha.1 hb.1, ha.2⟩
    | _ => cases h
  | matrix k n =>
    cases b with
    | scalar k' => obtain rfl := Option.some.inj h; exact ⟨ScalarKind.entry_entry _, ha.2⟩
    | matrix k' n' =>
      obtain ⟨-, h⟩ := Option.ite_none_right_eq_some.mp h
      exact Option.some.inj h ▸ ⟨hpromote (P := fun k => k.entry = k) ha.1 hb.1, ha.2⟩
    | _ => cases h

/-- The common type is a scalar only of scalars. -/
theorem isScalar_of_common? {kind : ScalarKind} (h : common? a b = some (.scalar kind)) :
    a.isScalar = true ∧ b.isScalar = true := by
  cases a <;> cases b <;> simp_all [common?, withElement, isScalar]

/-- The common type of a type of scalars is one of scalars. -/
theorem isNumeric_of_common? {c : Ty} (h : common? a b = some c) (ha : a.isNumeric = true) : c.isNumeric = true := by
  cases a <;> cases b <;>
    simp only [common?, Option.ite_none_right_eq_some, Option.some.injEq, reduceCtorEq] at h <;>
    first | (subst h; rfl) | (obtain ⟨-, rfl⟩ := h; rfl) | cases ha

/-- The component type of a type is regular. -/
theorem regular_elementTy (ty : Ty) : ty.elementTy.Regular := by
  unfold elementTy
  split <;> trivial

/-- Arrays of regular types compute. -/
theorem Regular.computes (h : ty.Regular) (hnumeric : ty.isNumeric = true) (hbool : ty ≠ .bool) : ty.Computes := by
  cases ty with
  | scalar kind => exact ⟨kind, rfl, fun hkind => hbool (hkind ▸ rfl)⟩
  | vector kind n => exact ⟨kind, rfl, by rintro rfl; simp [Regular, ScalarKind.component] at h⟩
  | matrix kind n => exact ⟨kind, rfl, by rintro rfl; simp [Regular, ScalarKind.entry] at h⟩
  | _ => cases hnumeric

/-- An array of scalars of a kind is regular and holds as many as it was made for. -/
theorem array?_eq_some {kind : ScalarKind} {n : Nat} (h : array? kind n = some ty) :
    ty.Regular ∧ ty.isArray = true ∧ ty.componentCount = n := by
  unfold array? at h
  split at h
  case h_6 => cases h
  all_goals
    obtain rfl := Option.some.inj h
    exact ⟨by simp [Regular], rfl, rfl⟩

end Ty

namespace Generate

variable {a b common : Ty}

/-- Both operands of an operator convert to the type it computes in, which is regular. -/
theorem operandTy_of_common? {c : OpClass} (h : Ty.common? a b = some common) (ha : a.Regular) (hb : b.Regular) :
    (operandTy c common).Regular ∧ a.convertsTo (operandTy c common) = true ∧
      b.convertsTo (operandTy c common) = true := by
  unfold operandTy
  split
  · next hbool =>
    obtain ⟨hsa, hsb⟩ := Ty.isScalar_of_common? (hbool.2 ▸ h)
    exact ⟨trivial, Ty.convertsTo_scalar hsa _, Ty.convertsTo_scalar hsb _⟩
  · exact Ty.common?_eq_some h ha hb

/-- The type that arithmetic computes in is one of numbers. -/
theorem operandTy_computes {c : OpClass} (hc : c = .arithmetic ∨ c = .bitwise) (hfit : operandsFit c a b = true)
    (h : Ty.common? a b = some common) (ha : a.Regular) (hb : b.Regular) : (operandTy c common).Computes := by
  obtain ⟨hregular, -, -⟩ := operandTy_of_common? (c := c) h ha hb
  have hnumeric : a.isNumeric = true := by
    rcases hc with rfl | rfl
    · exact (Bool.and_eq_true_iff.mp hfit).1
    · have hinteger := (Bool.and_eq_true_iff.mp hfit).1
      cases a <;> first | rfl | cases hinteger
  refine hregular.computes ?_ ?_
  · unfold operandTy
    split
    · rfl
    · exact Ty.isNumeric_of_common? h hnumeric
  · unfold operandTy
    split
    · simp
    · next hbool => exact fun hcommon => hbool ⟨hc, hcommon⟩

/-- The result of an operator has the type that is computed for it. -/
theorem hasType_binary {op : BinaryOp} (hop : op.opClass ≠ .logical) (hfit : operandsFit op.opClass a b = true)
    (h : Ty.common? a b = some common) (ha : a.Regular) (hb : b.Regular) :
    (∀ u v : Value, u.HasType (operandTy op.opClass common) → v.HasType (operandTy op.opClass common) →
      (Value.binary op u v).HasType (resultTy op.opClass (operandTy op.opClass common))) ∧
      (resultTy op.opClass (operandTy op.opClass common)).Regular := by
  unfold resultTy
  split
  · next hcompare => exact ⟨fun u v _ _ => Value.hasType_binary_compare hcompare u v, trivial⟩
  · next hcompare =>
    have harith : op.opClass = .arithmetic ∨ op.opClass = .bitwise := by
      cases hclass : op.opClass <;> simp_all
    exact ⟨fun u v hu hv => hu.binary_arith harith hv (operandTy_computes harith hfit h ha hb),
      (operandTy_of_common? h ha hb).1⟩

/-- The operand of an operator converts to the type it computes in, which is that of its result. -/
theorem unaryTy?_eq_some {op : UnaryOp} {res : Ty} (h : unaryTy? op a = some res) (ha : a.Regular) :
    res.Regular ∧ a.convertsTo res = true ∧ ∀ u : Value, u.HasType res → (Value.unary op u).HasType res := by
  have hpromoted : (if a = .bool then Ty.int32 else a).Regular ∧
      a.convertsTo (if a = .bool then Ty.int32 else a) = true := by
    split
    · next hbool => exact ⟨trivial, hbool ▸ Ty.convertsTo_scalar rfl _⟩
    · exact ⟨ha, a.convertsTo_refl⟩
  unfold unaryTy? at h
  cases op with
  | not =>
    simp only [Option.ite_none_right_eq_some, Option.some.injEq] at h
    obtain ⟨hscalar, rfl⟩ := h
    exact ⟨trivial, Ty.convertsTo_scalar hscalar _, fun u hu => hu.unary_not⟩
  | _ =>
    simp only [Option.ite_none_right_eq_some, Option.some.injEq] at h
    obtain ⟨-, rfl⟩ := h
    exact ⟨hpromoted.1, hpromoted.2, fun u hu => hu.unary (by decide)⟩

/-- The components of an array are scalars, as many as its type says, and the type is regular. -/
theorem packTy?_eq_some {tys : List Ty} {ty : Ty} (h : packTy? tys = some ty) :
    (ty.Regular ∧ ty.isArray = true ∧ tys.length = ty.componentCount) ∧ ∀ t ∈ tys, t.isScalar = true := by
  simp only [packTy?, Option.bind_eq_some_iff] at h
  obtain ⟨kind, ⟨kinds, hkinds, -⟩, harray⟩ := h
  obtain ⟨hregular, hisArray, hcount⟩ := Ty.array?_eq_some harray
  refine ⟨⟨hregular, hisArray, hcount.symm⟩, ?_⟩
  clear harray hcount
  induction tys generalizing kinds with
  | nil => simp
  | cons t tys ih =>
    simp only [List.mapM_cons, Option.pure_def, Option.bind_eq_bind, Option.bind_eq_some_iff] at hkinds
    obtain ⟨k, hk, kinds', hkinds', -⟩ := hkinds
    rw [List.forall_mem_cons]
    refine ⟨?_, ih kinds' hkinds'⟩
    cases t <;> first | rfl | cases hk

end Generate

end Elementwise
