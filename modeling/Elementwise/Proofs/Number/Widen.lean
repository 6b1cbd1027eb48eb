import Mathlib
import Elementwise.Number.Convert

/-!
# Widening loses nothing

A 32-bit number is the same number in 64 bits, so narrowing what was widened gives the number back, for every
32-bit number: the finite ones, small or not, the infinities, both zeros and the one that is not a number. Words
are read and written by the two formats here, and by the library, for which one word only is not a number.
-/

namespace Elementwise.Number

open Float.Model.UnpackedFloat

/-- A word whose exponent is not the largest is the word of its number. -/
theorem toBits_ofBits {w : Nat} (hw : w < 2 ^ 64) (hexponent : w / 2 ^ 52 % 2 ^ 11 ≠ 2 ^ 11 - 1) :
    (Float.ofBits (UInt64.ofNat w)).toBits.toNat = w := by
  have hvalid : Float.Model.Format.binary64.Valid (UInt64.ofNat w).toBitVec := by
    have hword : w % 18446744073709551616 = w := Nat.mod_eq_of_lt hw
    refine ⟨fun h _ => absurd (congrArg BitVec.toNat h) ?_⟩
    simpa [unpackExponent, BitVec.extractLsb, Nat.shiftRight_eq_div_pow, hword] using hexponent
  have hbits : (Float.ofBits (UInt64.ofNat w)).toBits = UInt64.ofNat w :=
    congrArg UInt64.ofBitVec (pack_unpack_of_valid hvalid)
  rw [hbits, UInt64.toNat_ofNat_of_lt' hw]

/-- Zeros at the end move the first bit up. -/
theorem log2_shiftLeft {m : Nat} (hm : m ≠ 0) (k : Nat) : (m <<< k).log2 = m.log2 + k := by
  rw [Nat.log2_eq_iff (by simpa using hm), Nat.shiftLeft_eq, Nat.pow_add, Nat.add_right_comm, Nat.pow_add]
  exact ⟨Nat.mul_le_mul_right _ (Nat.log2_self_le hm), Nat.mul_lt_mul_of_pos_right Nat.lt_log2_self (Nat.two_pow_pos k)⟩

/-- Places that hold zeros only are dropped without rounding. -/
theorem roundShift_shiftLeft (m places : Nat) : roundShift (m <<< places) places = m := by
  have hpos := Nat.two_pow_pos places
  simp [roundShift, Nat.shiftLeft_eq, Nat.shiftRight_eq_div_pow, Nat.mul_div_cancel m hpos]

/-- A significand and an exponent as the format keeps them. -/
structure Format.Keeps (f : Format) (m : Nat) (q : Int) : Prop where
  lt : m < 2 ^ (f.fractionBits + 1)
  least : f.leastExponent ≤ q
  full : 2 ^ f.fractionBits ≤ m ∨ q = f.leastExponent
  le : m + (q - f.leastExponent).toNat <<< f.fractionBits ≤ f.infinity

/-- A number that the format keeps is packed without rounding, whichever way it is given. -/
theorem Format.Keeps.pack_finite {f : Format} {m m' : Nat} {q q' : Int} (h : f.Keeps m q) (hm : m ≠ 0) (hm' : m' ≠ 0)
    (hlog : q' + m'.log2 = q + m.log2)
    (hscaled : (if q ≤ q' then m' <<< (q' - q).toNat else roundShift m' (q - q').toNat) = m) (negative : Bool) :
    f.pack (.finite negative m' q') = f.signed negative (m + (q - f.leastExponent).toNat <<< f.fractionBits) := by
  have hlast : max (q' + m'.log2 - f.fractionBits) f.leastExponent = q := by
    have hlt : m.log2 < f.fractionBits + 1 := (Nat.log2_lt hm).mpr h.lt
    have hleast := h.least
    rcases h.full with hfull | hfull
    · have := (Nat.le_log2 hm).mpr hfull
      omega
    · omega
  cases m' with
  | zero => exact absurd rfl hm'
  | succ n =>
    change f.signed negative (min ((if max _ f.leastExponent ≤ q' then _ else _) + _) _) = _
    rw [hlast, hscaled, Nat.min_eq_left h.le]

/-- What a 32-bit word stands for, and what it is made of. -/
inductive Word32 (w : Nat) : Unpacked → Prop
  | nan (hexponent : w / 2 ^ 23 % 2 ^ 8 = 255) (hfraction : w % 2 ^ 23 ≠ 0) : Word32 w .nan
  | infinite {negative} (hw : w = Format.binary32.signed negative Format.binary32.infinity) :
      Word32 w (.infinite negative)
  | finite {negative m q} (hkeeps : Format.binary32.Keeps m q)
      (hw : w = Format.binary32.signed negative (m + (q + 149).toNat <<< 23)) : Word32 w (.finite negative m q)

/-- Every 32-bit number is of one of the three forms. -/
theorem word32 (x : Float32) : Word32 x.toBits.toNat (unpack32 x) := by
  have hw := x.toBits.toNat_lt
  unfold unpack32
  generalize x.toBits.toNat = w at hw ⊢
  have hleast : Format.binary32.leastExponent = -149 := rfl
  have hsign {magnitude : Nat} (h : w % 2 ^ 31 = magnitude) :
      w = Format.binary32.signed (w / 2 ^ (23 + 8) % 2 == 1) magnitude := by
    simp only [Format.signed, Format.binary32, Nat.shiftLeft_eq, beq_iff_eq]
    split <;> omega
  have hkeeps {m : Nat} {q : Int} (hlt : m < 2 ^ 24) (hq : -149 ≤ q) (hfull : 2 ^ 23 ≤ m ∨ q = -149) (hle : q ≤ 104) :
      Format.binary32.Keeps m q := by
    refine ⟨hlt, hq, hfull, ?_⟩
    change m + (q + 149).toNat <<< 23 ≤ 2139095040
    omega
  unfold Format.unpack
  simp only [hleast]
  simp only [Format.binary32, Nat.shiftRight_eq_div_pow, Nat.shiftLeft_eq]
  split
  · next hexponent =>
    split
    · next hfraction => exact .infinite (hsign (show w % 2 ^ 31 = 2139095040 by omega))
    · next hfraction => exact .nan hexponent hfraction
  · split
    · exact .finite (hkeeps (by omega) (by omega) (.inr rfl) (by omega)) (hsign (by rw [Nat.shiftLeft_eq]; omega))
    · exact .finite (hkeeps (by omega) (by omega) (.inl (by omega)) (by omega))
        (hsign (by rw [Nat.shiftLeft_eq]; omega))

/-- The word of a 32-bit number is the one that is packed from what it stands for. -/
theorem pack_unpack32 (x : Float32) : Format.binary32.pack (unpack32 x) = x.toBits.toNat := by
  have hword := word32 x
  generalize unpack32 x = u at hword
  cases hword with
  | nan hexponent hfraction =>
    have hbits := x.toModel.valid.eq_packedNaN (BitVec.eq_of_toNat_eq ?_) fun h => hfraction ?_
    · change 2143289344 = x.toModel.toBits.toBitVec.toNat
      rw [hbits]
      rfl
    · simpa [Float32.toBits, unpackExponent, BitVec.extractLsb, Nat.shiftRight_eq_div_pow] using hexponent
    · simpa [Float32.toBits, unpackMantissa, BitVec.extractLsb] using congrArg BitVec.toNat h
  | infinite hw => exact hw.symm
  | @finite negative m q hkeeps hw =>
    rw [hw]
    by_cases hm : m = 0
    · subst hm
      obtain rfl : q = -149 := hkeeps.full.resolve_left (by decide)
      rfl
    · exact hkeeps.pack_finite hm hm rfl (by simp) negative

/-- The 64-bit word of a significand that fills its places is read back. -/
theorem unpack_word {m : Nat} {q : Int} (hlow : 2 ^ 52 ≤ m) (hhigh : m < 2 ^ 53) (hq : -1074 ≤ q) (hq' : q ≤ 970)
    (negative : Bool) :
    let w := Format.binary64.signed negative (m + (q + 1074).toNat <<< 52)
    w < 2 ^ 64 ∧ w / 2 ^ 52 % 2 ^ 11 ≠ 2 ^ 11 - 1 ∧ Format.binary64.unpack w = .finite negative m q := by
  have hleast : Format.binary64.leastExponent = -1074 := rfl
  obtain ⟨e, rfl⟩ : ∃ e : Nat, q = e - 1074 := ⟨(q + 1074).toNat, by omega⟩
  intro w
  have hw : w = m + e * 2 ^ 52 + if negative then 2 ^ 63 else 0 := by
    simp only [w, Format.signed, Format.binary64, Nat.shiftLeft_eq]
    split <;> omega
  have hsign : (w / 2 ^ (52 + 11) % 2 == 1) = negative := by
    cases negative with
    | false => exact beq_eq_false_iff_ne.mpr (by simp only [Bool.false_eq_true, if_false] at hw; omega)
    | true => exact beq_iff_eq.mpr (by simp only [if_true] at hw; omega)
  have hfields : w < 2 ^ 64 ∧ w / 2 ^ 52 % 2 ^ 11 = e + 1 ∧ w % 2 ^ 52 = m - 2 ^ 52 := by
    split at hw <;> omega
  refine ⟨hfields.1, by omega, ?_⟩
  unfold Format.unpack
  simp only [hleast]
  simp only [Format.binary64, Nat.shiftRight_eq_div_pow, Nat.shiftLeft_eq, Nat.one_mul, hfields.2.1, hfields.2.2, hsign]
  rw [if_neg (by omega), if_neg (by omega), Unpacked.finite.injEq]
  exact ⟨rfl, by omega, by omega⟩

/-- A number other than zero that fits in 32 bits is kept in 64 with zeros at the end of its significand. -/
theorem unpack64_pack64 {m : Nat} {q : Int} (hkeeps : Format.binary32.Keeps m q) (hm : m ≠ 0) (negative : Bool) :
    ∃ k > 0, unpack64 (pack64 (.finite negative m q)) = .finite negative (m <<< k) (q - k) := by
  have hlog : m.log2 < 24 := (Nat.log2_lt hm).mpr hkeeps.lt
  have hq : -149 ≤ q := hkeeps.least
  have hq' : m + (q + 149).toNat <<< 23 ≤ 2139095040 := hkeeps.le
  obtain ⟨k, hk⟩ : ∃ k, m.log2 + k = 52 := ⟨52 - m.log2, by omega⟩
  have hm' : m <<< k ≠ 0 := by simpa using hm
  have hlog' : (m <<< k).log2 = 52 := (log2_shiftLeft hm k).trans hk
  have hlow : 2 ^ 52 ≤ m <<< k := (Nat.le_log2 hm').mp (by omega)
  have hhigh : m <<< k < 2 ^ 53 := (Nat.log2_lt hm').mp (by omega)
  obtain ⟨hlt, hexponent, hunpack⟩ := unpack_word hlow hhigh (q := q - k) (by omega) (by omega) negative
  have hwide : Format.binary64.Keeps (m <<< k) (q - k) := by
    refine ⟨hhigh, (by omega : -1074 ≤ _), .inl hlow, ?_⟩
    change m <<< k + (q - k + 1074).toNat <<< 52 ≤ 9218868437227405312
    omega
  have hscaled : (if q - k ≤ q then m <<< (q - (q - k)).toNat else roundShift m (q - k - q).toNat) = m <<< k := by
    rw [if_pos (by omega), show (q - (q - k)).toNat = k by omega]
  refine ⟨k, by omega, ?_⟩
  rw [pack64, hwide.pack_finite hm' hm (by omega) hscaled negative, unpack64]
  exact (congrArg _ (toBits_ofBits hlt hexponent)).trans hunpack

/-- Narrowing gives back every number that was widened. -/
theorem narrow_widen (x : Float32) : narrow (widen x) = x := by
  have hself : pack32 (unpack32 x) = x := by
    rw [pack32, pack_unpack32, UInt32.ofNat_toNat, Float32.ofBits_toBits]
  refine Eq.trans ?_ hself
  rw [narrow, widen]
  have hword := word32 x
  generalize unpack32 x = u at hword
  cases hword with
  | nan => rfl
  | @infinite negative => cases negative <;> rfl
  | @finite negative m q hkeeps =>
    by_cases hm : m = 0
    · subst hm
      obtain rfl : q = -149 := hkeeps.full.resolve_left (by decide)
      cases negative <;> rfl
    · obtain ⟨k, hk, hwide⟩ := unpack64_pack64 hkeeps hm negative
      have hscaled : (if q ≤ q - k then m <<< k <<< (q - k - q).toNat
          else roundShift (m <<< k) (q - (q - k)).toNat) = m := by
        rw [if_neg (by omega), show (q - (q - k)).toNat = k by omega, roundShift_shiftLeft]
      rw [hwide, pack32, pack32, hkeeps.pack_finite hm hm rfl (by simp) negative,
        hkeeps.pack_finite hm (by simpa using hm) (by rw [log2_shiftLeft hm]; omega) hscaled negative]

end Elementwise.Number
