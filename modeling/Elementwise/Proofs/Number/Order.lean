import Elementwise.Number.Convert

/-!
# The order of floating numbers

Two floating numbers compare unless one of them is not a number, and then they compare the other way
round with the opposite result. So of two numbers one is below the other or they are equal, and a range
between them can always be turned the right way; a range with a bound that is not a number cannot.
-/

namespace Elementwise.Number

open Float.Model (UnpackedFloat)

/-- Comparing the other way round turns the result round. -/
theorem compare_swap (a b : UnpackedFloat) : b.compare a = (a.compare b).map Ordering.swap := by
  cases a with
  | notANumber => cases b <;> rfl
  | infinity s =>
    cases b with
    | infinity s' | finite s' => cases s <;> cases s' <;> rfl
    | _ => cases s <;> rfl
  | zero s =>
    cases b with
    | infinity s' | finite s' => cases s' <;> rfl
    | _ => rfl
  | finite s m e =>
    cases b with
    | infinity s' => cases s <;> cases s' <;> rfl
    | notANumber | zero => cases s <;> rfl
    | finite s' m' e' =>
      -- exponents first, then significands: both comparisons are turned round
      have hswap : (compare e' e).then (compare m' m) = ((compare e e').then (compare m m')).swap := by
        rw [Ordering.swap_then, ← Std.OrientedCmp.eq_swap, ← Std.OrientedCmp.eq_swap]
      cases s with
      | positive =>
        cases s' with
        | positive => exact congrArg some hswap
        | negative => rfl
      | negative =>
        cases s' with
        | positive => rfl
        | negative => exact congrArg some (congrArg Ordering.swap hswap)

/-- Numbers do not compare exactly if one of them is not a number. -/
theorem compare_eq_none_iff (a b : UnpackedFloat) :
    a.compare b = none ↔ a.isNaN = true ∨ b.isNaN = true := by
  have hsome (r : Ordering) : some r = none ↔ false = true ∨ false = true := by simp
  cases a with
  | notANumber => exact ⟨fun _ => .inl rfl, fun _ => rfl⟩
  | infinity s =>
    cases b with
    | notANumber => exact ⟨fun _ => .inr rfl, fun _ => rfl⟩
    | _ => cases s <;> exact hsome _
  | zero =>
    cases b with
    | notANumber => exact ⟨fun _ => .inr rfl, fun _ => rfl⟩
    | infinity s' | finite s' => cases s' <;> exact hsome _
    | zero => exact hsome _
  | finite s =>
    cases b with
    | notANumber => exact ⟨fun _ => .inr rfl, fun _ => rfl⟩
    | infinity s' | finite s' => cases s <;> cases s' <;> exact hsome _
    | zero => cases s <;> exact hsome _

variable {a b : Float}

/-- How two floating numbers compare. -/
def compare? (a b : Float) : Option Ordering := a.toModel.unpack.compare b.toModel.unpack

theorem compare?_eq_none_iff : compare? a b = none ↔ a.isNaN = true ∨ b.isNaN = true := compare_eq_none_iff _ _

/-- A floating number is below another. -/
theorem lt_iff : a < b ↔ compare? a b = some .lt := by
  change decide (UnpackedFloat.lt a.toModel.unpack b.toModel.unpack = true) = true ↔ _
  rw [decide_eq_true_iff]
  exact beq_iff_eq

/-- A floating number is equal to another. -/
theorem beq_iff : (a == b) = true ↔ compare? a b = some .eq := by
  change UnpackedFloat.beq a.toModel.unpack b.toModel.unpack = true ↔ _
  exact beq_iff_eq

/-- A floating number is at most another. -/
theorem le_iff : a ≤ b ↔ compare? a b = some .lt ∨ compare? a b = some .eq := by
  change decide (UnpackedFloat.le a.toModel.unpack b.toModel.unpack = true) = true ↔ _
  rw [decide_eq_true_iff]
  change (compare? a b).any Ordering.isLE = true ↔ _
  rcases compare? a b with _ | _ | _ | _ <;> simp

/-- A number is at most another that is not below it. -/
theorem le_of_not_lt (ha : a.isNaN = false) (hb : b.isNaN = false) (h : ¬b < a) : a ≤ b := by
  have hcompares : compare? a b ≠ none := by
    rw [ne_eq, compare?_eq_none_iff, ha, hb]
    decide
  rw [lt_iff, compare?, compare_swap, ← compare?] at h
  rw [le_iff]
  rcases hr : compare? a b with _ | _ | _ | _
  · exact absurd hr hcompares
  · exact .inl rfl
  · exact .inr rfl
  · simp [hr] at h

/-- Nothing is below, equal to or at most something that is not a number, nor the other way round. -/
theorem not_compares (h : a.isNaN = true ∨ b.isNaN = true) : (a == b) = false ∧ ¬a < b ∧ ¬b < a ∧ ¬a ≤ b := by
  have hnone := compare?_eq_none_iff.mpr h
  have hnone' := compare?_eq_none_iff.mpr h.symm
  refine ⟨?_, ?_, ?_, ?_⟩
  · rw [← Bool.not_eq_true, beq_iff, hnone]
    simp
  · rw [lt_iff, hnone]
    simp
  · rw [lt_iff, hnone']
    simp
  · rw [le_iff, hnone]
    simp

/-- A number is limited to a range exactly if the lower bound is at most the upper one. -/
theorem clamp?_isSome_iff {x lo hi : Float} : (clamp? x lo hi).isSome = true ↔ lo ≤ hi := by
  unfold clamp?
  split
  · next h => simp [h]
  · next h => simp [h]

end Elementwise.Number
