import Elementwise.Proofs.Value.Typing

/-!
# Integer arithmetic

Integers of all kinds are computed with in 64 bits and narrowed to their kind. Told by their bits, this is two's
complement arithmetic of the width of the kind: narrowing commutes with every operator that does not look at
higher bits, and the others have results that are right as integers before they are narrowed.
-/

namespace Elementwise

/-- The kinds of integers. -/
inductive IntegerKind where
  | int16
  | int32
  | int64

namespace IntegerKind

/-- The number of bits. -/
abbrev width : IntegerKind → Nat
  | int16 => 16
  | int32 => 32
  | int64 => 64

/-- The kind as a kind of scalars. -/
def kind : IntegerKind → ScalarKind
  | int16 => .int16
  | int32 => .int32
  | int64 => .int64

/-- The scalar with the given bits. -/
def scalar : (k : IntegerKind) → BitVec k.width → Scalar
  | int16, x => .int16 (.ofBitVec x)
  | int32, x => .int32 (.ofBitVec x)
  | int64, x => .int64 (.ofBitVec x)

/-- The scalars of a kind are given by their bits. -/
theorem kind_eq_iff (k : IntegerKind) (s : Scalar) : s.kind = k.kind ↔ ∃ x, s = k.scalar x := by
  constructor
  · intro h
    cases k <;> cases s <;> simp only [Scalar.kind, kind, reduceCtorEq] at h
    · exact ⟨Int16.toBitVec _, rfl⟩
    · exact ⟨Int32.toBitVec _, rfl⟩
    · exact ⟨Int64.toBitVec _, rfl⟩
  · rintro ⟨x, rfl⟩
    cases k <;> rfl

/-! ## Widening and narrowing -/

/-- Narrowing keeps the low bits of an integer. -/
theorem setWidth_ofInt (k : IntegerKind) (n : Int) : (BitVec.ofInt 64 n).setWidth k.width = .ofInt k.width n := by
  have hw : k.width ≤ 64 := by cases k <;> decide
  rw [← BitVec.signExtend_eq_setWidth_of_le _ hw]
  apply BitVec.eq_of_toInt_eq
  rw [BitVec.toInt_signExtend, BitVec.toInt_ofInt, BitVec.toInt_ofInt, Nat.min_eq_left hw,
    Int.bmod_bmod_of_dvd (Nat.pow_dvd_pow 2 hw)]

variable (k : IntegerKind) (x y : BitVec k.width)

@[simp] theorem kind_scalar : (k.scalar x).kind = k.kind := (k.kind_eq_iff _).mpr ⟨x, rfl⟩

/-- Widening keeps the integer. -/
@[simp] theorem toInt_toInt64 : (k.scalar x).toInt64.toInt = x.toInt := by
  cases k with
  | int16 => exact Int16.toInt_toInt64 _
  | int32 => exact Int32.toInt_toInt64 _
  | int64 => rfl

/-- Narrowing takes back what was widened. -/
@[simp] theorem setWidth_toInt64 : (k.scalar x).toInt64.toBitVec.setWidth k.width = x := by
  rw [← Int64.ofInt_toInt (k.scalar x).toInt64, Int64.toBitVec_ofInt, toInt_toInt64, setWidth_ofInt, BitVec.ofInt_toInt]

/-- A widened integer is zero only if it was. -/
theorem toInt64_eq_zero : (k.scalar y).toInt64 = 0 ↔ y = 0 := by
  rw [← Int64.toInt_inj, toInt_toInt64, ← BitVec.toInt_inj]
  exact Eq.congr_right BitVec.toInt_zero.symm

/-- The integer with the low bits of one of 64 bits. -/
theorem ofInt64_kind (n : Int64) : k.kind.ofInt64 n = k.scalar (n.toBitVec.setWidth k.width) := by
  cases k with
  | int16 => exact congrArg (Scalar.int16 ∘ Int16.ofBitVec) (BitVec.signExtend_eq_setWidth_of_le _ (by decide))
  | int32 => exact congrArg (Scalar.int32 ∘ Int32.ofBitVec) (BitVec.signExtend_eq_setWidth_of_le _ (by decide))
  | int64 => exact congrArg (Scalar.int64 ∘ Int64.ofBitVec) (BitVec.setWidth_eq _).symm

/-! ## Operators -/

/-- What an operator gives in 64 bits, narrowed. -/
theorem binary_scalar {op : BinaryOp} (hop : op.opClass = .arithmetic ∨ op.opClass = .bitwise) {n : Int64}
    {z : BitVec k.width} (hn : Scalar.intArith? op k.kind.shiftWidth (k.scalar x).toInt64 (k.scalar y).toInt64 = some n)
    (hz : n.toBitVec.setWidth k.width = z) :
    Value.binary op (.scalar (k.scalar x)) (.scalar (k.scalar y)) = .scalar (k.scalar z) := by
  have hbinary : Value.binary op (.scalar (k.scalar x)) (.scalar (k.scalar y)) =
      .scalar ((k.scalar x).arith op (k.scalar y)) := by
    cases op <;> first | rfl | simp [BinaryOp.opClass] at hop
  have hfloating : k.kind.isFloating = false := by cases k <;> rfl
  have hbool : k.kind ≠ .bool := by cases k <;> decide
  rw [hbinary, Scalar.arith, kind_scalar, hfloating, hn]
  simp only [Bool.false_eq_true, if_false, if_neg hbool, ofInt64_kind, hz]

/-- A quotient is truncated. -/
theorem binary_div : Value.binary .div (.scalar (k.scalar x)) (.scalar (k.scalar y)) =
    .scalar (k.scalar (.ofInt k.width (x.toInt.tdiv y.toInt))) := by
  refine k.binary_scalar x y (.inl rfl) rfl ?_
  split
  · next hy =>
    rw [(k.toInt64_eq_zero y).mp hy, show (0 : BitVec k.width).toInt = 0 from BitVec.toInt_zero, Int.tdiv_zero]
    exact k.setWidth_ofInt 0
  · have hquotient (a b : Int64) : a / b = Int64.ofInt (a.toInt.tdiv b.toInt) := by
      rw [← Int64.toInt_inj, Int64.toInt_div, Int64.toInt_ofInt]
    rw [hquotient, Int64.toBitVec_ofInt, setWidth_ofInt, toInt_toInt64, toInt_toInt64]

/-- A remainder has the sign of what is divided, and is zero where the divisor is. -/
theorem binary_rem : Value.binary .rem (.scalar (k.scalar x)) (.scalar (k.scalar y)) =
    .scalar (k.scalar (if y = 0 then 0 else .ofInt k.width (x.toInt.tmod y.toInt))) := by
  refine k.binary_scalar x y (.inl rfl) rfl ?_
  simp only [toInt64_eq_zero]
  split
  · exact k.setWidth_ofInt 0
  · rw [← Int64.ofInt_toInt (_ % _), Int64.toInt_mod, Int64.toBitVec_ofInt, setWidth_ofInt, toInt_toInt64, toInt_toInt64]

/-- The least integer divided by minus one wraps to itself, and nothing remains. -/
theorem least_by_minus_one : .ofInt k.width ((BitVec.intMin k.width).toInt.tdiv (-1 : BitVec k.width).toInt) = BitVec.intMin k.width ∧
    (if (-1 : BitVec k.width) = 0 then 0
      else .ofInt k.width ((BitVec.intMin k.width).toInt.tmod (-1 : BitVec k.width).toInt)) = (0 : BitVec k.width) := by
  cases k <;> decide

/-- The amount of a shift is the right operand modulo the width, in 64 bits as well. -/
theorem toNat_shift : ((Int64.ofInt ((k.scalar y).toInt64.toInt % k.kind.shiftWidth)).toBitVec.smod 64).toNat =
    (y.toInt % k.width).toNat := by
  have hwidth : k.kind.shiftWidth = k.width := by cases k <;> rfl
  have hpos : 0 < (k.width : Int) ∧ (k.width : Int) ≤ 64 := by cases k <;> decide
  have hamount : ∀ n : Fin 64, ((BitVec.ofNat 64 n).smod 64).toNat = n := by decide
  have hlt : (y.toInt % k.width).toNat < 64 := by
    have := Int.emod_lt_of_pos y.toInt hpos.1
    omega
  rw [toInt_toInt64, hwidth, Int64.toBitVec_ofInt]
  nth_rewrite 1 [← Int.toNat_of_nonneg (Int.emod_nonneg y.toInt (by omega : (k.width : Int) ≠ 0))]
  exact hamount ⟨_, hlt⟩

/-- A shift to the right fills in the sign. -/
theorem setWidth_sshiftRight (n : Nat) : ((k.scalar x).toInt64.toBitVec.sshiftRight n).setWidth k.width = x.sshiftRight n := by
  have hwide : (k.scalar x).toInt64.toBitVec.sshiftRight n = (k.scalar (x.sshiftRight n)).toInt64.toBitVec := by
    apply BitVec.eq_of_toInt_eq
    rw [BitVec.toInt_sshiftRight, Int64.toInt_toBitVec, Int64.toInt_toBitVec, toInt_toInt64, toInt_toInt64,
      BitVec.toInt_sshiftRight]
  rw [hwide, setWidth_toInt64]

/-- Integers are compared with their signs. -/
theorem binary_compare {op : BinaryOp} (hop : op.opClass = .relational) :
    Value.binary op (.scalar (k.scalar x)) (.scalar (k.scalar y)) =
      .bool (Scalar.ordered op (x.toInt < y.toInt) (x.toInt = y.toInt) (y.toInt < x.toInt)) := by
  have hbinary : Value.binary op (.scalar (k.scalar x)) (.scalar (k.scalar y)) =
      .bool ((k.scalar x).compare op (k.scalar y)) := by
    cases op <;> first | rfl | simp [BinaryOp.opClass] at hop
  have hfloating : k.kind.isFloating = false := by cases k <;> rfl
  rw [hbinary, Scalar.compare, kind_scalar, kind_scalar, hfloating]
  simp only [Bool.or_false, Bool.false_eq_true, if_false, Int64.lt_iff_toInt_lt, toInt_toInt64, beq_eq_decide,
    ← Int64.toInt_inj]

/-- Negation and complement are those of the width. -/
theorem unary_scalar : Value.unary .neg (.scalar (k.scalar x)) = .scalar (k.scalar (-x)) ∧
    Value.unary .bitNot (.scalar (k.scalar x)) = .scalar (k.scalar (~~~x)) := by
  have hw : k.width ≤ 64 := by cases k <;> decide
  have hneg : (k.scalar x).neg = k.kind.ofInt64 (-(k.scalar x).toInt64) := by cases k <;> rfl
  have hnot : (k.scalar x).bitNot = k.kind.ofInt64 (~~~(k.scalar x).toInt64) := by cases k <;> rfl
  constructor
  · rw [Value.unary, Value.unaryScalar, hneg, ofInt64_kind, Int64.toBitVec_neg, BitVec.setWidth_neg_of_le hw, setWidth_toInt64]
  · rw [Value.unary, Value.unaryScalar, hnot, ofInt64_kind, Int64.toBitVec_not, BitVec.setWidth_not hw, setWidth_toInt64]

/-- A conversion keeps the integer as far as it fits. -/
theorem convert?_scalar (k' : IntegerKind) : (Value.scalar (k.scalar x)).convert? (.scalar k'.kind) =
    some (.scalar (k'.scalar (.ofInt k'.width x.toInt))) := by
  by_cases hkind : k.kind = k'.kind
  · obtain rfl : k = k' := by cases k <;> cases k' <;> first | rfl | simp [kind] at hkind
    rw [Value.convert?, if_pos (by rw [Value.ty, kind_scalar]), BitVec.ofInt_toInt]
  · have hcast : (k.scalar x).cast k'.kind = k'.kind.ofInt64 (k.scalar x).toInt64 := by cases k <;> rfl
    rw [Value.convert?, if_neg (by simpa [Value.ty] using hkind)]
    simp only [hcast, ofInt64_kind]
    rw [← Int64.ofInt_toInt (k.scalar x).toInt64, Int64.toBitVec_ofInt, toInt_toInt64, setWidth_ofInt]

/-- Integer arithmetic is two's complement of the width of the operands. The scalars of an integer kind are given by
their bits. Sums, differences and products wrap, quotients and remainders are truncated and zero where the
divisor is zero, shifts are by the right operand modulo the width, to the right with the sign, and comparisons
are signed. A conversion keeps the integer modulo the width of the target, so widening can be taken back. -/
theorem arithmetic_twosComplement (k : IntegerKind) :
    (∀ s : Scalar, s.kind = k.kind ↔ ∃ x, s = k.scalar x) ∧
    (∀ x y : BitVec k.width,
      let binary (op : BinaryOp) : Value := .binary op (.scalar (k.scalar x)) (.scalar (k.scalar y))
      let integer (z : BitVec k.width) : Value := .scalar (k.scalar z)
      binary .add = integer (x + y) ∧ binary .sub = integer (x - y) ∧ binary .mul = integer (x * y) ∧
      binary .div = integer (.ofInt k.width (x.toInt.tdiv y.toInt)) ∧
      binary .rem = integer (if y = 0 then 0 else .ofInt k.width (x.toInt.tmod y.toInt)) ∧
      (y = 0 → binary .div = integer 0) ∧
      (x = .intMin k.width → y = -1 → binary .div = integer x ∧ binary .rem = integer 0) ∧
      binary .bitAnd = integer (x &&& y) ∧ binary .bitOr = integer (x ||| y) ∧ binary .bitXor = integer (x ^^^ y) ∧
      binary .shl = integer (x <<< (y.toInt % k.width).toNat) ∧
      binary .shr = integer (x.sshiftRight (y.toInt % k.width).toNat) ∧
      binary .lt = .bool (x.toInt < y.toInt) ∧ binary .le = .bool (x.toInt ≤ y.toInt) ∧
      binary .gt = .bool (y.toInt < x.toInt) ∧ binary .ge = .bool (y.toInt ≤ x.toInt)) ∧
    (∀ x : BitVec k.width, Value.unary .neg (.scalar (k.scalar x)) = .scalar (k.scalar (-x)) ∧
      Value.unary .bitNot (.scalar (k.scalar x)) = .scalar (k.scalar (~~~x))) ∧
    ∀ (k' : IntegerKind) (x : BitVec k.width),
      (Value.scalar (k.scalar x)).convert? (.scalar k'.kind) =
        some (.scalar (k'.scalar (.ofInt k'.width x.toInt))) ∧
      (k.width ≤ k'.width →
        (Value.scalar (k'.scalar (.ofInt k'.width x.toInt))).convert? (.scalar k.kind) = some (.scalar (k.scalar x))) := by
  have hw : k.width ≤ 64 := by cases k <;> decide
  refine ⟨k.kind_eq_iff, fun x y => ?_, k.unary_scalar, fun k' x => ⟨k.convert?_scalar x k', fun hle => ?_⟩⟩
  · intro binary integer
    refine ⟨?_, ?_, ?_, k.binary_div x y, k.binary_rem x y, ?_, ?_, ?_, ?_, ?_, ?_, ?_, ?_, ?_, ?_, ?_⟩
    · exact k.binary_scalar x y (.inl rfl) rfl (by simp [BitVec.setWidth_add _ _ hw])
    · refine k.binary_scalar x y (.inl rfl) rfl ?_
      simp [BitVec.sub_eq_add_neg, BitVec.setWidth_add _ _ hw, BitVec.setWidth_neg_of_le hw]
    · exact k.binary_scalar x y (.inl rfl) rfl (by simp [BitVec.setWidth_mul _ _ hw])
    · rintro rfl
      refine (k.binary_div x 0).trans ?_
      rw [show (0 : BitVec k.width).toInt = 0 from BitVec.toInt_zero, Int.tdiv_zero]
      rfl
    · rintro rfl rfl
      obtain ⟨hquotient, hremainder⟩ := k.least_by_minus_one
      exact ⟨(k.binary_div _ _).trans (congrArg integer hquotient), (k.binary_rem _ _).trans (congrArg integer hremainder)⟩
    · exact k.binary_scalar x y (.inr rfl) rfl (by simp)
    · exact k.binary_scalar x y (.inr rfl) rfl (by simp)
    · exact k.binary_scalar x y (.inr rfl) rfl (by simp)
    · refine k.binary_scalar x y (.inr rfl) rfl ?_
      rw [Int64.toBitVec_shiftLeft, BitVec.shiftLeft_eq', toNat_shift, BitVec.setWidth_shiftLeft_of_le hw, setWidth_toInt64]
    · refine k.binary_scalar x y (.inr rfl) rfl ?_
      rw [Int64.toBitVec_shiftRight, BitVec.sshiftRight', toNat_shift, setWidth_sshiftRight]
    · exact k.binary_compare x y rfl
    · refine (k.binary_compare x y rfl).trans ?_
      simp [Scalar.ordered, Int.le_iff_lt_or_eq]
    · exact k.binary_compare x y rfl
    · refine (k.binary_compare x y rfl).trans ?_
      simp [Scalar.ordered, Int.le_iff_lt_or_eq, eq_comm]
  · have hkept : (BitVec.ofInt k'.width x.toInt).toInt = x.toInt := BitVec.toInt_signExtend_of_le hle
    rw [convert?_scalar, hkept, BitVec.ofInt_toInt]

end IntegerKind

end Elementwise
