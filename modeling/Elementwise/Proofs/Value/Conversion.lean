import Elementwise.Proofs.Generate.Types
import Elementwise.Proofs.Number.Widen

/-!
# Conversion follows its rule

Which types convert to which is decided from the types alone, and which values do from the values. Both answers
agree for the types that have a name, and what a value becomes has the type that was asked for: the value itself
for its own type, and otherwise a scalar, in every component or on the diagonal, or an array component by
component.
-/

namespace Elementwise

/-- A scalar converted to its own kind is the same. -/
theorem Scalar.cast_kind (s : Scalar) : s.cast s.kind = s := by
  cases s with
  | bool b => rfl
  | int16 n => exact congrArg int16 n.toInt16_toInt64
  | int32 n => exact congrArg int32 n.toInt32_toInt64
  | int64 n => rfl
  | float x => exact congrArg float (Number.narrow_widen x)
  | double x => rfl

namespace Value

variable {v w : Value} {a b : Ty}

/-- A value converted to its own type is the same. -/
theorem HasType.convert?_self (h : v.HasType a) (ha : a.Regular) : v.convert? a = some v := if_pos (h.ty_eq ha)

/-- A scalar converts to every kind. -/
theorem convert?_scalar (s : Scalar) (kind : ScalarKind) :
    (scalar s).convert? (.scalar kind) = some (scalar (s.cast kind)) := by
  unfold convert?
  split
  · next h =>
    obtain rfl := Ty.scalar.inj h
    rw [s.cast_kind]
  · rfl

/-- A value converts to exactly those types that its own type converts to. -/
theorem HasType.isSome_convert?_iff (h : v.HasType a) (ha : a.Regular) :
    (v.convert? b).isSome = true ↔ a.convertsTo b = true := by
  constructor
  · intro hsome
    by_cases heq : a = b
    · exact heq ▸ a.convertsTo_refl
    · unfold Value.convert? at hsome
      rw [if_neg (h.ty_eq ha ▸ heq)] at hsome
      cases h with
      | scalar | string | void => cases b <;> simp_all [Ty.convertsTo]
      | @vector items _ _ hlength =>
        cases b with
        | vector kind n =>
          have hn : items.length = n.toNat := by simpa using hsome
          simp [Ty.convertsTo, UInt8.toNat_inj.mp (hlength.symm.trans hn)]
        | _ => cases hsome
      | @matrix items _ _ hlength =>
        cases b with
        | matrix kind n =>
          have hn : items.length = n.toNat * n.toNat := by simpa using hsome
          simp [Ty.convertsTo, UInt8.toNat_inj.mp (Nat.mul_self_inj.mp (hlength.symm.trans hn))]
        | _ => cases hsome
  · intro hconverts
    obtain ⟨w, hw, -⟩ := h.convert? ha hconverts
    rw [hw]
    rfl

/-- The matrix with an entry on the diagonal, by rows and columns. -/
theorem getElem?_diagonal {n i j : Nat} (hi : i < n) (hj : j < n) (entry other : Value) :
    (diagonal n entry other).components[i * n + j]? = some (if i = j then entry else other) := by
  simp [diagonal, components, Ty.entry_lt hi hj, Ty.entry_div i hj, Ty.entry_mod i hj]

/-- Arrays are converted component by component. -/
theorem HasType.forall₂_convert? (h : v.HasType a) (ha : a.Regular) (harray : a.isArray = true)
    (hw : v.convert? b = some w) :
    List.Forall₂ (fun c d => c.convert? b.elementTy = some d) v.components w.components := by
  have hcast {items : List Value} {kind : ScalarKind} (hitems : ∀ c ∈ items, c.scalarKind? = some kind)
      (kind' : ScalarKind) :
      List.Forall₂ (fun c d => c.convert? (.scalar kind') = some d) items (items.map (castItem kind')) := by
    refine List.forall₂_map_right_iff.mpr (List.forall₂_same.mpr fun c hc => ?_)
    obtain ⟨s, rfl, -⟩ := scalarKind?_eq_some (hitems c hc)
    exact convert?_scalar s kind'
  by_cases heq : a = b
  · subst heq
    obtain rfl := Option.some.inj ((h.convert?_self ha).symm.trans hw)
    refine List.forall₂_same.mpr fun c hc => if_pos ?_
    cases h with
    | vector hlength hitems | matrix hlength hitems => exact HasType.ty_eq (hasType_scalar_iff.mpr (hitems c hc)) trivial
    | _ => cases harray
  · unfold Value.convert? at hw
    rw [if_neg (h.ty_eq ha ▸ heq)] at hw
    cases h with
    | vector hlength hitems =>
      cases b with
      | vector kind' n =>
        obtain ⟨-, hw⟩ := Option.ite_none_right_eq_some.mp hw
        exact Option.some.inj hw ▸ hcast hitems kind'
      | _ => cases hw
    | matrix hlength hitems =>
      cases b with
      | matrix kind' n =>
        obtain ⟨-, hw⟩ := Option.ite_none_right_eq_some.mp hw
        exact Option.some.inj hw ▸ hcast hitems kind'
      | _ => cases hw
    | _ => cases harray

/-- Conversion agrees with the rule for types. A value of a type with a name converts to exactly those types that its
type converts to, and becomes a value of the type: itself for its own, a scalar in every component of a vector, or on
the diagonal of a matrix with zero elsewhere, and an array component by component. Two types with a type in common
both convert to it. -/
theorem conversion_agrees (ha : a.Nameable) (hb : b.Nameable) (hv : v.HasType a) :
    ((v.convert? b).isSome = true ↔ a.convertsTo b = true) ∧
    (∀ w, v.convert? b = some w → w.HasType b ∧ w.ty = b) ∧
    (a = b → v.convert? b = some v) ∧
    (∀ k kind n, a = .scalar k → b = .vector kind n → ∃ x, v.convert? (.scalar kind) = some x ∧
      v.convert? b = some (.vector (List.replicate n.toNat x))) ∧
    (∀ k kind n, a = .scalar k → b = .matrix kind n → ∃ x items, v.convert? (.scalar kind) = some x ∧
      v.convert? b = some (.matrix items) ∧ items.length = n.toNat * n.toNat ∧
      ∀ i < n.toNat, ∀ j < n.toNat, items[i * n.toNat + j]? = some (if i = j then x else .zero (.scalar kind))) ∧
    (a.isArray = true → b.isArray = true → ∀ w, v.convert? b = some w →
      List.Forall₂ (fun c d => c.convert? b.elementTy = some d) v.components w.components) ∧
    ∀ a b t, Ty.common? a b = some t → a.convertsTo t = true ∧ b.convertsTo t = true := by
  have hconverts : (v.convert? b).isSome = true ↔ a.convertsTo b = true := hv.isSome_convert?_iff ha.regular
  refine ⟨hconverts, fun w hw => ?_, ?_, ?_, ?_, fun harray _ w hw => ?_, fun _ _ _ h => Ty.convertsTo_common? h⟩
  · obtain ⟨w', hw', htype⟩ := hv.convert? ha.regular (hconverts.mp (by rw [hw]; rfl))
    obtain rfl := Option.some.inj (hw.symm.trans hw')
    exact ⟨htype, htype.ty_eq hb.regular⟩
  · rintro rfl
    exact hv.convert?_self ha.regular
  · rintro k kind n rfl rfl
    cases hv with
    | scalar => exact ⟨_, convert?_scalar _ kind, rfl⟩
  · rintro k kind n rfl rfl
    cases hv with
    | scalar => exact ⟨_, _, convert?_scalar _ kind, rfl, by simp, fun i hi j hj => getElem?_diagonal hi hj _ _⟩
  · exact hv.forall₂_convert? ha.regular harray hw

/-- A 16-bit integer on the diagonal of a matrix. -/
theorem conversion_agrees_diagonal :
    ∃ x items, (scalar (.int16 5)).convert? .double = some x ∧
      (scalar (.int16 5)).convert? (.matrix .double 3) = some (matrix items) ∧ items[4]? = some x ∧
      items[5]? = some (zero .double) := by
  have hshort : (Ty.scalar .int16).Nameable := ⟨"short", rfl⟩
  have hmatrix : (Ty.matrix .double 3).Nameable := ⟨"mat3d", by decide⟩
  obtain ⟨-, -, -, -, hdiagonal, -⟩ := conversion_agrees hshort hmatrix (.scalar rfl : (scalar (.int16 5)).HasType _)
  obtain ⟨x, items, hx, hitems, -, hentry⟩ := hdiagonal _ _ _ rfl rfl
  exact ⟨x, items, hx, hitems, hentry 1 (by decide) 1 (by decide), hentry 1 (by decide) 2 (by decide)⟩

end Value

end Elementwise
