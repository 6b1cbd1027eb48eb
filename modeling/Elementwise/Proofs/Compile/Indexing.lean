import Elementwise.Proofs.Compile.NothingDropped
import Elementwise.Proofs.Compile.Sound
import Elementwise.Proofs.Function.Inline
import Elementwise.Proofs.Optimize.Preservation
import Elementwise.Proofs.Perform.Actions
import Elementwise.Proofs.Value.Conversion

/-!
# Indexing

Which component of a vector or a matrix an index reaches at run time. Generated code narrows each index to 32
bits and makes one position of row and column; only the position is compared with the number of components. So
an index that names a component reaches it, and one that does not may still reach another.
-/

namespace Elementwise

/-- The integer that a scalar of an integer type is. -/
def Scalar.integer? : Scalar → Option Int
  | bool b => some b.toInt
  | int16 n => some n.toInt
  | int32 n => some n.toInt
  | int64 n => some n.toInt
  | float _ | double _ => none

namespace Ty

/-- The component that is named by an index, or by a row and a column; each of them has to be in range. -/
def named? : Ty → Int → Option Int → Option Nat
  | vector _ n, i, none => if 0 ≤ i ∧ i < n.toNat then some i.toNat else none
  | matrix _ n, i, none => if 0 ≤ i ∧ i < (n.toNat * n.toNat : Nat) then some i.toNat else none
  | matrix _ n, row, some column =>
    if (0 ≤ row ∧ row < n.toNat) ∧ 0 ≤ column ∧ column < n.toNat then some (row.toNat * n.toNat + column.toNat)
    else none
  | _, _, _ => none

/-- The position that an index, or a row and a column, stand for in the order of the components. -/
def position : Ty → Int → Option Int → Int
  | _, i, none => i
  | matrix _ n, row, some column => row * n.toNat + column
  | _, row, some _ => row

/-- The component at a position that is kept in 32 bits. -/
def reached? (ty : Ty) (position : Int) : Option Nat :=
  let i := (Int32.ofInt position).toInt
  if 0 ≤ i ∧ i < ty.componentCount then some i.toNat else none

/-- A position that fits in 32 bits. -/
def FitsWord (position : Int) : Prop := -2147483648 ≤ position ∧ position < 2147483648

instance (position : Int) : Decidable (FitsWord position) := inferInstanceAs (Decidable (_ ∧ _))

variable {ty : Ty} {i : Int} {j : Option Int} {k : Nat}

/-- A position that fits in 32 bits reaches the component there. -/
theorem reached?_of_fitsWord (h : FitsWord i) :
    ty.reached? i = if 0 ≤ i ∧ i < ty.componentCount then some i.toNat else none := by
  have hnarrow : (Int32.ofInt i).toInt = i := Int32.toInt_ofInt_of_le h.1 h.2
  simp only [reached?, hnarrow]

/-- The position of a component that is named. -/
theorem position_of_named? (h : ty.named? i j = some k) : ty.position i j = k ∧ k < ty.componentCount := by
  unfold named? at h
  split at h
  · simp only [Option.ite_none_right_eq_some, Option.some.injEq] at h
    simp only [position, componentCount]
    omega
  · simp only [Option.ite_none_right_eq_some, Option.some.injEq] at h
    simp only [position, componentCount]
    omega
  · simp only [Option.ite_none_right_eq_some, Option.some.injEq] at h
    obtain ⟨⟨⟨hrow, hrow'⟩, hcolumn, hcolumn'⟩, rfl⟩ := h
    obtain ⟨row, rfl⟩ := Int.eq_ofNat_of_zero_le hrow
    obtain ⟨column, rfl⟩ := Int.eq_ofNat_of_zero_le hcolumn
    exact ⟨by simp [position], entry_lt (by simpa using hrow') (by simpa using hcolumn')⟩
  · cases h

/-- What is named is reached. -/
theorem reached?_of_named? (h : ty.named? i j = some k) : ty.reached? (ty.position i j) = some k := by
  obtain ⟨hposition, hk⟩ := position_of_named? h
  have hcount := ty.componentCount_lt
  rw [reached?_of_fitsWord ⟨by omega, by omega⟩, hposition, if_pos ⟨by omega, by omega⟩, Int.toNat_natCast]

/-- One index that fits in 32 bits reaches what it names, and nothing else. -/
theorem reached?_index (hty : ty.isArray = true) (hi : FitsWord i) :
    ty.reached? (ty.position i none) = ty.named? i none := by
  cases ty with
  | vector | matrix => exact reached?_of_fitsWord hi
  | scalar | string | void => cases hty

/-- A column in range and any row with a position that fits in 32 bits reach the entry that they name, and nothing
else. -/
theorem reached?_entry {kind : ScalarKind} {n : UInt8} {row column : Int} (hcolumn : 0 ≤ column ∧ column < n.toNat)
    (hfits : FitsWord ((matrix kind n).position row (some column))) :
    (matrix kind n).reached? ((matrix kind n).position row (some column)) = (matrix kind n).named? row (some column) := by
  by_cases hrow : 0 ≤ row ∧ row < n.toNat
  · have hnamed : (matrix kind n).named? row (some column) = some (row.toNat * n.toNat + column.toNat) :=
      if_pos ⟨hrow, hcolumn⟩
    rw [hnamed, reached?_of_named? hnamed]
  · have hnamed : (matrix kind n).named? row (some column) = none := if_neg fun h => hrow h.1
    rw [hnamed, reached?_of_fitsWord hfits]
    refine if_neg fun hrange => hrow ?_
    simp only [position, componentCount, Int.natCast_mul] at hrange
    constructor
    · by_contra hneg
      have := Int.mul_le_mul_of_nonneg_right (show row ≤ -1 by omega) (Int.natCast_nonneg n.toNat)
      omega
    · by_contra hge
      have := Int.mul_le_mul_of_nonneg_right (show (n.toNat : Int) ≤ row by omega) (Int.natCast_nonneg n.toNat)
      omega

end Ty

namespace Value

/-- A component of an array of a type; the zero of the element type if there is none. -/
def readAt (v : Value) (ty : Ty) (k : Option Nat) : Value := (k.bind fun k => v.components[k]?).getD (zero ty.elementTy)

/-- An array with a component replaced; the array itself if there is none. -/
def writtenAt (v : Value) (k : Option Nat) (component : Value) : Value := (k.map fun k => v.insert k component).getD v

variable {v : Value} {ty : Ty}

/-- An index of 32 bits that is below zero or beyond the last component reaches nothing. -/
theorem index?_position (ty : Ty) (position : Int) :
    ((int32 (Int32.ofInt position)).index? = none ∧ ty.reached? position = none) ∨
    ∃ k, (int32 (Int32.ofInt position)).index? = some k ∧
      ty.reached? position = if k < ty.componentCount then some k else none := by
  have hindex : (int32 (Int32.ofInt position)).toInt64.toInt = (Int32.ofInt position).toInt := Int32.toInt_toInt64 _
  simp only [index?, Ty.reached?, hindex]
  generalize (Int32.ofInt position).toInt = i
  by_cases hi : 0 ≤ i
  · refine .inr ⟨i.toNat, if_pos hi, ?_⟩
    exact if_congr (by omega) rfl rfl
  · exact .inl ⟨if_neg hi, if_neg fun h => hi h.1⟩

/-- The components of an array of a type: reading and writing beyond the last of them does nothing. -/
theorem HasType.beyond (h : v.HasType ty) (hty : ty.isArray = true) :
    (∀ k, v.extract? k = v.components[k]?) ∧ v.components.length = ty.componentCount ∧
      ∀ k component, ty.componentCount ≤ k → v.insert k component = v := by
  cases h with
  | vector hlength | matrix hlength =>
    refine ⟨fun _ => rfl, hlength, fun k component hk => ?_⟩
    rw [Value.insert, List.set_eq_of_length_le (Nat.le_trans (Nat.le_of_eq hlength) hk)]
  | scalar | string | void => cases hty

/-- Reading at a position that is kept in 32 bits reads what the position reaches. -/
theorem HasType.extractAt?_position (h : v.HasType ty) (hty : ty.isArray = true) (position : Int) :
    (v.extractAt? (.int32 (Int32.ofInt position))).getD (.zero ty.elementTy) = v.readAt ty (ty.reached? position) := by
  obtain ⟨hextract, hlength, -⟩ := h.beyond hty
  rw [Value.extractAt?, readAt]
  rcases index?_position ty position with ⟨hindex, hreached⟩ | ⟨k, hindex, hreached⟩
  · rw [hindex, hreached, Option.bind_none, Option.bind_none]
  · rw [hindex, hreached, Option.bind_some, hextract]
    split
    · rfl
    · next hk => rw [List.getElem?_eq_none (by omega), Option.bind_none]

/-- Writing at a position that is kept in 32 bits replaces what the position reaches. -/
theorem HasType.insertAt_position (h : v.HasType ty) (hty : ty.isArray = true) (position : Int) (component : Value) :
    v.insertAt (.int32 (Int32.ofInt position)) component = v.writtenAt (ty.reached? position) component := by
  obtain ⟨-, -, hbeyond⟩ := h.beyond hty
  rw [Value.insertAt, writtenAt]
  rcases index?_position ty position with ⟨hindex, hreached⟩ | ⟨k, hindex, hreached⟩
  · rw [hindex, hreached]
    rfl
  · rw [hindex, hreached]
    dsimp only
    split
    · rfl
    · next hk => exact hbeyond k component (by omega)

end Value

/-- An integer of any type, converted to an index, is kept in 32 bits. -/
theorem Datum.convert_integer {s : Scalar} {i : Int} (h : s.integer? = some i) :
    Datum.convert ⟨.scalar s.kind, .scalar s⟩ .int32 = ⟨.int32, .int32 (Int32.ofInt i)⟩ := by
  have hcast {s : Scalar} (hs : s.cast .int32 = .int32 (Int32.ofInt i)) (hkind : s.kind ≠ .int32) :
      Datum.convert ⟨.scalar s.kind, .scalar s⟩ .int32 = ⟨.int32, .int32 (Int32.ofInt i)⟩ := by
    have hty : Ty.scalar s.kind ≠ .int32 := fun heq => hkind (Ty.scalar.inj heq)
    rw [Datum.convert, if_neg hty, Value.convert, Value.convert?, Value.ty, if_neg hty]
    exact congrArg (Datum.mk .int32) (congrArg Value.scalar hs)
  cases s with
  | bool b =>
    obtain rfl := Option.some.inj h
    exact hcast (by cases b <;> rfl) (by simp [Scalar.kind])
  | int16 n =>
    obtain rfl := Option.some.inj h
    refine hcast (congrArg Scalar.int32 ?_) (by simp [Scalar.kind])
    rw [← Int16.toInt_toInt64, Int32.ofInt_int64ToInt]
    rfl
  | int32 n =>
    obtain rfl := Option.some.inj h
    rw [Int32.ofInt_toInt]
    rfl
  | int64 n =>
    obtain rfl := Option.some.inj h
    exact hcast (congrArg Scalar.int32 (Int32.ofInt_int64ToInt n).symm) (by simp [Scalar.kind])
  | float | double => cases h

/-- The position of an entry is kept in 32 bits. -/
theorem Datum.entryIndex_position (kind : ScalarKind) (n : UInt8) (row column : Int) :
    Datum.entryIndex n ⟨.int32, .int32 (Int32.ofInt row)⟩ ⟨.int32, .int32 (Int32.ofInt column)⟩ =
      ⟨.int32, .int32 (Int32.ofInt ((Ty.matrix kind n).position row (some column)))⟩ := by
  -- Operators compute in 64 bits and keep the low 32 of them.
  have hmul (a b : Int32) : Value.binary .mul (.int32 a) (.int32 b) = .int32 (a * b) := by
    have hword : (a.toInt64 * b.toInt64).toInt32 = a * b := by simp
    exact congrArg Value.int32 hword
  have hadd (a b : Int32) : Value.binary .add (.int32 a) (.int32 b) = .int32 (a + b) := by
    have hword : (a.toInt64 + b.toInt64).toInt32 = a + b := by simp
    exact congrArg Value.int32 hword
  simp only [Datum.entryIndex, Datum.binary, Datum.ofValue, hmul, hadd, Ty.position, Int32.ofInt_add, Int32.ofInt_mul]

/-- The code between two builders, run from a machine, leaves a value in the register of an operand. It makes no
call, and keeps the element and the registers that were there before. -/
def Builder.Leaves (b b' : Builder) (m : Machine) (o : Operand) (v : Value) : Prop :=
  ∃ code, b.Adds code b' ∧ ∀ types fuel, KeepsTypes b'.regs types → m.regs.size = types.size →
    ∃ m', Instr.runAll types fuel code m = .done .next m' ∧ m.Later b.regs.size b'.regs.size m' ∧
      m'.calls = m.calls ∧ m'.regs[o.reg]? = some v

/-- Code that computes a datum leaves it. -/
theorem Computes.leaves {b b' : Builder} {m : Machine} {o : Operand} {d : Datum} (hgrows : b.Grows b')
    (h : ∀ types fuel, Computes types fuel b.regs.size b b' m (Pure.pure d) (o.Holds b')) : b.Leaves b' m o d.value := by
  obtain ⟨code, hadds⟩ := hgrows
  refine ⟨code, hadds, fun types fuel htypes hsize => ?_⟩
  have hrun : Realizes _ _ m _ _ (.value d m.calls) := h types fuel code hadds htypes hsize
  generalize Instr.runAll types fuel code m = out at hrun ⊢
  generalize hcalls : m.calls = calls at hrun ⊢
  cases hrun with
  | value hlater hpost => exact ⟨_, rfl, hlater, rfl, hpost.value⟩

/-- An operand holds an integer, of whichever integer type it has. -/
def Operand.HoldsInteger (o : Operand) (b : Builder) (i : Int) (m : Machine) : Prop :=
  ∃ s : Scalar, o.Holds b ⟨.scalar s.kind, .scalar s⟩ m ∧ s.integer? = some i

/-- The machine after an array was put back: into its register and, if it came from a field, into the slot. -/
def Machine.putBack (m : Machine) (base : Place) (r : Reg) (v : Value) : Machine :=
  { m with
    regs := m.regs.setIfInBounds r v
    state := match base with
      | .slot slot _ => m.state.write slot v
      | _ => m.state }

namespace Generate

open Builder

variable {ctx : Context} {scopes : Scopes} {b b' : Builder} {types : Array Ty} {fuel : Nat} {m : Machine}

variable {array index : Term} {base : Place} {column : Option Term} {container o : Operand} {id : NodeId}

/-- The operands that a component is found by: an index, or a row that is kept in 32 bits and a column. -/
inductive Subscripts (ctx : Context) (scopes : Scopes) :
    Term → Option Term → Operand → Option Operand → Builder → Builder → Prop
  | index {t v b b'} (hvalue : Emits ctx scopes (.value t v) b b') (hinteger : v.ty.isIntegerScalar = true) :
      Subscripts ctx scopes t none v none b b'
  | entry {row column r i c b b₁ b₂ b'} (hrow : Emits ctx scopes (.value row r) b b₁)
      (hinteger : r.ty.isIntegerScalar = true) (hnarrow : Builder.convert r .int32 b₁ = (i, b₂))
      (hcolumn : Emits ctx scopes (.value column c) b₂ b') (hinteger' : c.ty.isIntegerScalar = true) :
      Subscripts ctx scopes row (some column) i (some c) b b'

/-- Such operands hold an index, or a row and a column. -/
inductive HoldSubscripts (b : Builder) (m : Machine) : Operand → Option Operand → Int → Option Int → Prop
  | index {v i} (h : v.HoldsInteger b i m) : HoldSubscripts b m v none i none
  | entry {r c row column} (hrow : r.Holds b ⟨.int32, .int32 (Int32.ofInt row)⟩ m)
      (hcolumn : c.HoldsInteger b column m) : HoldSubscripts b m r (some c) row (some column)

/-- An integer is narrowed to 32 bits. -/
theorem computes_narrow {v : Operand} {i : Int} (hbuild : Builder.convert v .int32 b = (o, b'))
    (hv : v.HoldsInteger b i m) :
    Computes types fuel b.regs.size b b' m (pure ⟨.int32, .int32 (Int32.ofInt i)⟩) (o.Holds b') := by
  obtain ⟨s, hs, hi⟩ := hv
  rw [← Datum.convert_integer hi]
  exact (does_convert hs .int32).computes hbuild

/-- The code of a position leaves it in 32 bits. -/
theorem Emits.position (h : Emits ctx scopes (.position container index column o) b b') :
    container.ty.isArray = true ∧ ∃ v c b₁, Subscripts ctx scopes index column v c b b₁ ∧ b₁.Grows b' ∧
      ∀ types fuel m i j, HoldSubscripts b₁ m v c i j → Computes types fuel b₁.regs.size b₁ b' m
        (pure ⟨.int32, .int32 (Int32.ofInt (container.ty.position i j))⟩) (o.Holds b') := by
  cases h with
  | vectorPosition hty hindex | matrixPosition hty hindex =>
    cases hindex with
    | index hrange hvalue hinteger hbuild =>
      refine ⟨by rw [hty]; rfl, _, _, _, .index hvalue hinteger, Grows.of_eq hbuild, fun types fuel m i j hm => ?_⟩
      cases hm with
      | index hv => exact computes_narrow hbuild hv
  | @entryPosition _ kind n _ _ _ _ _ _ _ _ _ hty hrow hcolumn hbuild =>
    cases hrow with
    | index hrange hrow hinteger hnarrow =>
      cases hcolumn with
      | index hrange' hcolumn hinteger' hnarrow' =>
        refine ⟨by rw [hty]; rfl, _, _, _, .entry hrow hinteger hnarrow hcolumn hinteger',
          (Grows.of_eq hnarrow').trans (Grows.of_eq hbuild), fun types fuel m i j hm => ?_⟩
        cases hm with
        | entry hr hc =>
          rw [hty, ← Datum.entryIndex_position]
          refine .before (Grows.of_eq hnarrow') (Grows.of_eq hbuild) (computes_narrow hnarrow' hc)
            fun m₁ hlater hj => ?_
          exact (does_entryIndex n (hr.later hlater (Grows.of_eq hnarrow')) hj).computes hbuild

/-- A component is read at its position. -/
theorem computes_extract {index : Operand} {value : Value} {position : Int}
    (hbuild : Builder.extract container index b = (o, b')) (hcontainer : container.Holds b ⟨container.ty, value⟩ m)
    (hindex : index.Holds b ⟨.int32, .int32 (Int32.ofInt position)⟩ m) (hvalue : value.HasType container.ty)
    (hty : container.ty.isArray = true) :
    Computes types fuel b.regs.size b b' m
      (pure ⟨container.ty.elementTy, value.readAt container.ty (container.ty.reached? position)⟩) (o.Holds b') := by
  rw [← hvalue.extractAt?_position hty]
  exact (does_extract hcontainer hindex).computes hbuild

/-- What the code of reading a component does. After the array and the operands that the component is found by, it
leaves the component that their position reaches. -/
def ReadsReached (ctx : Context) (scopes : Scopes) (array index : Term) (column : Option Term) (o : Operand)
    (b b' : Builder) : Prop :=
  ∃ container v c b₁ b₂, Emits ctx scopes (.value array container) b b₁ ∧ container.ty.isArray = true ∧
    Subscripts ctx scopes index column v c b₁ b₂ ∧
    ∀ m value i j, container.Holds b₂ ⟨container.ty, value⟩ m → value.HasType container.ty →
      HoldSubscripts b₂ m v c i j →
      b₂.Leaves b' m o (value.readAt container.ty (container.ty.reached? (container.ty.position i j)))

/-- Reading a component reads what its position reaches. -/
theorem Emits.readsReached (h : Emits ctx scopes (.value (.node id (.unpack array index column)) o) b b') :
    ReadsReached ctx scopes array index column o b b' := by
  cases h with
  | @unpack _ _ _ _ container i _ _ b₁ b₂ _ harray hindex hbuild =>
    obtain ⟨hty, v, c, b₃, hsubscripts, hgrows, hposition⟩ := hindex.position
    refine ⟨container, v, c, b₁, b₃, harray, hty, hsubscripts, fun m value i j hcontainer hvalue hm => ?_⟩
    refine Computes.leaves (d := ⟨container.ty.elementTy, _⟩) (hgrows.trans (Grows.of_eq hbuild)) fun types fuel => ?_
    refine .before hgrows (Grows.of_eq hbuild) (hposition types fuel m i j hm) fun m₁ hlater hi => ?_
    exact computes_extract hbuild (hcontainer.later hlater hgrows) hi hvalue hty

/-- To load a component reads the one that its position reaches. -/
def LoadsReached (base : Place) (container index : Operand) : Prop :=
  ∀ position o b b' m value, load (.component base container index) b = (o, b') →
    container.Holds b ⟨container.ty, value⟩ m → value.HasType container.ty →
    index.Holds b ⟨.int32, .int32 (Int32.ofInt position)⟩ m →
    b.Leaves b' m o (value.readAt container.ty (container.ty.reached? position))

/-- To store into a component replaces the one that its position reaches, and nothing else. -/
def StoresReached (base : Place) (container index : Operand) : Prop :=
  ∀ position w u b b', store (.component base container index) w b = (u, b') → ∃ code, b.Adds code b' ∧
    ∀ types fuel m value x, m.regs[container.reg]? = some value → value.HasType container.ty →
      m.regs[index.reg]? = some (.int32 (Int32.ofInt position)) → m.regs[w.reg]? = some x →
      Instr.runAll types fuel code m =
        .done .next (m.putBack base container.reg (value.writtenAt (container.ty.reached? position) x))

/-- What the code of a component as a place does. The array is a local, or a field that is loaded. After it and the
operands that the component is found by, the code leaves their position, by which the place is loaded and stored
into. -/
def PlacesReached (ctx : Context) (scopes : Scopes) (array index : Term) (column : Option Term) (p : Place)
    (b b' : Builder) : Prop :=
  ∃ base container i v c b₁ b₂ b₃, p = .component base container i ∧ Emits ctx scopes (.place array base) b b₁ ∧
    load base b₁ = (container, b₂) ∧ container.ty.isArray = true ∧
    (base = .register container ∨ ∃ slot, base = .slot slot container.ty ∧
      ∀ m, b₁.Leaves b₂ m container ((m.state.read? slot).getD (.zero container.ty))) ∧
    Subscripts ctx scopes index column v c b₂ b₃ ∧
    (∀ m k l, HoldSubscripts b₃ m v c k l →
      b₃.Leaves b' m i (.int32 (Int32.ofInt (container.ty.position k l)))) ∧
    LoadsReached base container i ∧ StoresReached base container i

/-- The array of a component is no component. -/
theorem base_cases (hload : load base b = (container, b')) (hty : container.ty.isArray = true) :
    base = .register container ∨ ∃ slot, base = .slot slot container.ty ∧
      ∀ m, b.Leaves b' m container ((m.state.read? slot).getD (.zero container.ty)) := by
  cases base with
  | register o => exact .inl (congrArg Place.register (Prod.mk.inj hload).1)
  | slot slot ty =>
    obtain rfl : container.ty = ty := load_ty hload
    refine .inr ⟨slot, rfl, fun m => ?_⟩
    exact Computes.leaves (Grows.of_eq hload) fun types fuel => (does_readSlot slot container.ty).computes hload
  | component base' container' index' =>
    have helement : container.ty = container'.ty.elementTy := load_ty hload
    rw [helement] at hty
    cases hty' : container'.ty <;> simp [hty', Ty.elementTy, Ty.element?, Ty.isArray] at hty

/-- A component is loaded from its position. -/
theorem loadsReached {i : Operand} (hty : container.ty.isArray = true) : LoadsReached base container i := by
  intro position o b b' m value hload hcontainer hvalue hi
  exact Computes.leaves (d := ⟨container.ty.elementTy, _⟩) (Grows.of_eq hload) fun types fuel =>
    computes_extract hload hcontainer hi hvalue hty

/-- A component is stored at its position. -/
theorem storesReached {i : Operand} (hbase : base = .register container ∨ ∃ slot, base = .slot slot container.ty)
    (hty : container.ty.isArray = true) : StoresReached base container i := by
  intro position w u b b' hstore
  have hinsert (types : Array Ty) (fuel : Nat) (m : Machine) (value x : Value)
      (hcontainer : m.regs[container.reg]? = some value) (hvalue : value.HasType container.ty)
      (hi : m.regs[i.reg]? = some (.int32 (Int32.ofInt position))) (hw : m.regs[w.reg]? = some x) :
      (Instr.insert container.reg container.reg i.reg w.reg).run types fuel m = .done .next
        { m with regs := m.regs.setIfInBounds container.reg (value.writtenAt (container.ty.reached? position) x) } := by
    have hlt := (Array.getElem?_eq_some_iff.mp hcontainer).1
    rw [Instr.run, Machine.withReg, hi]
    simp only [Machine.withReg, hcontainer, hw, Machine.set, if_pos hlt, hvalue.insertAt_position hty]
  rcases hbase with rfl | ⟨slot, rfl⟩
  · have hemit : Builder.insert container i w b = (u, b') := by
      rw [← hstore]
      simp [store]
    refine ⟨_, .of_emit hemit, fun types fuel m value x hcontainer hvalue hi hw => ?_⟩
    rw [Instr.runAll_singleton, hinsert types fuel m value x hcontainer hvalue hi hw]
    rfl
  · obtain ⟨_, b₁, hemit, hwrite⟩ := bind_eq hstore
    refine ⟨_, (Adds.of_emit hemit).trans (.of_emit hwrite), fun types fuel m value x hcontainer hvalue hi hw => ?_⟩
    have hlt := (Array.getElem?_eq_some_iff.mp hcontainer).1
    rw [Instr.runAll_append, Instr.runAll_singleton, hinsert types fuel m value x hcontainer hvalue hi hw]
    simp only [Instr.runAll_singleton, Instr.run, Machine.withReg, Array.getElem?_setIfInBounds_self_of_lt hlt,
      Machine.putBack]

/-- A component as a place is at its position. -/
theorem Emits.placesReached {p : Place} (h : Emits ctx scopes (.place (.node id (.unpack array index column)) p) b b') :
    PlacesReached ctx scopes array index column p b b' := by
  cases h with
  | @placeComponent _ _ _ _ base container i _ b₁ b₂ _ hbase hload hindex =>
    obtain ⟨hty, v, c, b₃, hsubscripts, hgrows, hposition⟩ := hindex.position
    have hcases := base_cases hload hty
    refine ⟨base, container, i, v, c, b₁, b₂, b₃, rfl, hbase, hload, hty, hcases, hsubscripts, fun m k l hm => ?_,
      loadsReached hty, storesReached (hcases.imp_right (Exists.imp fun _ h => h.1)) hty⟩
    exact Computes.leaves (d := ⟨.int32, _⟩) hgrows fun types fuel => hposition types fuel m k l hm

/-- With the standard library, a value is generated as an operand that has a register of its type, if locals do. -/
theorem Emits.register_made (hstd : ctx.library = .standard) (hnumbered : ctx.registry.Numbered) {s : Term}
    (h : Emits ctx scopes (.value s o) b b')
    (hscopes : ∀ scope ∈ scopes, ∀ entry ∈ scope, b.regs[entry.2.reg]? = some entry.2.ty) :
    b'.regs[o.reg]? = some o.ty := by
  have hctx : Context.Sound ⟨ctx.registry.slotTypes, False⟩ ctx := by
    refine ⟨fun _ _ hget => hnumbered.slotTypes_getElem? hget, False.elim, fun _ _ hget => ?_⟩
    rw [hstd] at hget
    exact Library.standard_sound hget
  have hready : scopes.Ready ⟨ctx.registry.slotTypes, False⟩ b Set.univ := fun scope hscope entry hentry =>
    ⟨hscopes scope hscope entry hentry, Set.mem_univ _, False.elim⟩
  obtain ⟨code, W', -, -, -, hready⟩ := h.yields hctx False.elim hready
  exact Operand.Ready.type hready

/-- A component of an array that stands in a term that was generated was generated as a value or as a place. -/
theorem Generated.unpack_within {t : Term} (h : Generated ctx t)
    (hs : (Term.node id (.unpack array index column)).Within t) :
    (∃ scopes o b b', Emits ctx scopes (.value (.node id (.unpack array index column)) o) b b') ∨
      ∃ scopes p b b', Emits ctx scopes (.place (.node id (.unpack array index column)) p) b b' := by
  generalize hunpack : Term.node id (.unpack array index column) = s at hs ⊢
  induction hs with
  | self =>
    subst hunpack
    cases h with
    | value h => exact .inl ⟨_, _, _, _, h⟩
    | place h => exact .inr ⟨_, _, _, _, h⟩
    | statement h =>
      cases h with
      | expression h => exact .inl ⟨_, _, _, _, h⟩
  | child hc hs ih =>
    rcases h.child hc with hchild | ⟨ty, nameId, name, start, rfl, -⟩
    · exact ih hchild
    · subst hunpack
      cases hs with
      | child hname => simp at hname

end Generate

/-- A component of an array that stands in a term stands in its lowered form too. -/
theorem Lowers.unpack_within {t t' array index : Term} {column : Option Term} {id : NodeId} (h : Lowers t t')
    (hs : (Term.node id (.unpack array index column)).Within t) :
    ∃ id' array' index' column', (Term.node id' (.unpack array' index' column')).Within t' ∧
      Lowers (.node id (.unpack array index column)) (.node id' (.unpack array' index' column')) := by
  rcases h.exists_within_right hs with ⟨s', hs', hlowers⟩ | ⟨⟨textId, name, htext⟩, -⟩
  · cases hlowers with
    | @node _ id' _ content' hshape hchildren =>
      cases content' with
      | unpack array' index' column' => exact ⟨id', array', index', column', hs', .node hshape hchildren⟩
      | _ => simp [Node.shape, Node.map, Node.mapM, Id.run, bind, pure] at hshape
  · cases htext

namespace Tree

open Builder Generate

variable {t : Tree} {map : SourceMap} {target : Target} {options : CompileOptions} {e : Executable}

/-- Whatever its integer type, an index of a compiled program is kept in 32 bits, and so is the position of a row and
a column. Each component of an array that stands in the tree was generated by the rules, and by these rules it is
read, and replaced, at what the position reaches: zero is read, and nothing is replaced, where it reaches nothing.
What is named is reached. One index that fits in 32 bits, and a column in range with any row whose position fits,
reach nothing else. -/
theorem indexing_reaches_position (h : t.compile map target options = .ok e) :
    (∃ program spanOf scopes b, Lowers t.program program ∧
      Issues ⟨e.registry, options.library, options.custom, spanOf⟩ 0 (.one program) []
        { target := e.registry.target, slots := e.registry.size } scopes b ∧ e.program.code.StandsFor b.finish ∧
      ∀ id array index column, (Term.node id (.unpack array index column)).Within t.program →
        ∃ id' array' index' column',
          Lowers (.node id (.unpack array index column)) (.node id' (.unpack array' index' column')) ∧
          ((∃ scopes o b b', Emits ⟨e.registry, options.library, options.custom, spanOf⟩ scopes
              (.value (.node id' (.unpack array' index' column')) o) b b') ∨
            ∃ scopes p b b', Emits ⟨e.registry, options.library, options.custom, spanOf⟩ scopes
              (.place (.node id' (.unpack array' index' column')) p) b b')) ∧
    (options.library = .standard → ∀ spanOf scopes s o b b',
      Emits ⟨e.registry, options.library, options.custom, spanOf⟩ scopes (.value s o) b b' →
      (∀ scope ∈ scopes, ∀ entry ∈ scope, b.regs[entry.2.reg]? = some entry.2.ty) → b'.regs[o.reg]? = some o.ty) ∧
    (∀ ctx scopes id array index column o b b',
      Emits ctx scopes (.value (.node id (.unpack array index column)) o) b b' →
        ReadsReached ctx scopes array index column o b b') ∧
    (∀ ctx scopes id array index column p b b',
      Emits ctx scopes (.place (.node id (.unpack array index column)) p) b b' →
        PlacesReached ctx scopes array index column p b b') ∧
    (∀ v o b b' m i, Builder.convert v .int32 b = (o, b') → v.HoldsInteger b i m →
      b.Leaves b' m o (.int32 (Int32.ofInt i))) ∧
    (∀ (ty : Ty) i j k, ty.named? i j = some k → ty.reached? (ty.position i j) = some k) ∧
    (∀ (ty : Ty) i, ty.isArray = true → Ty.FitsWord i → ty.reached? (ty.position i none) = ty.named? i none) ∧
    ∀ kind (n : UInt8) (row column : Int), 0 ≤ column ∧ column < n.toNat →
      Ty.FitsWord ((Ty.matrix kind n).position row (some column)) →
      (Ty.matrix kind n).reached? ((Ty.matrix kind n).position row (some column)) =
        (Ty.matrix kind n).named? row (some column) := by
  refine ⟨?_, ?_, fun _ _ _ _ _ _ _ _ _ h => h.readsReached, fun _ _ _ _ _ _ _ _ _ h => h.placesReached,
    fun v o b b' m i hbuild hv => ?_, fun _ _ _ _ h => Ty.reached?_of_named? h, fun _ _ hty hi => Ty.reached?_index hty hi,
    fun _ _ _ _ hcolumn hfits => Ty.reached?_entry hcolumn hfits⟩
  · obtain ⟨-, program, spanOf, scopes, b, hlowers, hissues, hcompile, -⟩ := compile_eq_ok h
    refine ⟨program, spanOf, scopes, b, hlowers, hissues, ?_, fun id array index column hs => ?_⟩
    · rw [Code.code_of_compile hcompile]
      exact Code.optimize_standsFor _ _
    · obtain ⟨id', array', index', column', hs', hlowered⟩ := hlowers.unpack_within hs
      exact ⟨id', array', index', column', hlowered, Generated.unpack_within (.statement hissues) hs'⟩
  · intro hlibrary spanOf scopes s o b b' hemits hscopes
    obtain ⟨hnumbered, -⟩ := compile_eq_ok h
    exact hemits.register_made hlibrary hnumbered hscopes
  · exact Computes.leaves (d := ⟨.int32, _⟩) (Grows.of_eq hbuild) fun types fuel => computes_narrow hbuild hv

/-- `int32@a = vec3i@v[int64@i];` -/
def oneIndex : Tree :=
  [Call.add (.field "a" .int32 false true), .add (.field "v" (.vector .int32 3) false false),
    .add (.field "i" (.scalar .int64) false false), .add (.unpack 2 3 none), .add (.assign 1 4 none),
    .pushStatement 0 5].foldl Call.after (.empty 0)

/-- `int32@a = m[int32@r][int32@c];` for a field of three rows. -/
def twoIndices : Tree :=
  [Call.add (.field "a" .int32 false true), .add (.field "m" (.matrix .int32 3) false false),
    .add (.field "r" .int32 false false), .add (.field "c" .int32 false false), .add (.unpack 2 3 (some 4)),
    .add (.assign 1 5 none), .pushStatement 0 6].foldl Call.after (.empty 0)

/-- What the first slot holds after a compiled tree has run on an element with the given slots. -/
def firstSlot? (t : Tree) (slots : Array Value) : Option Scalar := do
  let e ← (t.compile (.empty t) .points {}).toOption
  let ending ← (e.program.run 1 (.start slots none)).ending?
  let v ← ending.element.values[0]?
  return v.number

/-- A field that is indexed by another is read at what the index reaches; nothing is there below zero and, in a
matrix, after the last row. -/
theorem indexing_reaches_position_field :
    let indexed : Term := .node 4 (.unpack (.node 2 (.field "v" (.vector .int32 3) false false))
      (.node 3 (.field "i" (.scalar .int64) false false)) none)
    ∃ e spanOf id array index column, oneIndex.compile (.empty oneIndex) .points {} = .ok e ∧
      Lowers indexed (.node id (.unpack array index column)) ∧
      ((∃ scopes o b b', ReadsReached ⟨e.registry, .standard, {}, spanOf⟩ scopes array index column o b b') ∨
        ∃ scopes p b b', PlacesReached ⟨e.registry, .standard, {}, spanOf⟩ scopes array index column p b b') ∧
      (Ty.vector .int32 3).reached? ((Ty.vector .int32 3).position 2 none) = some 2 ∧
      (Ty.vector .int32 3).reached? ((Ty.vector .int32 3).position (-1) none) = none ∧
      (Ty.matrix .int32 3).reached? ((Ty.matrix .int32 3).position 3 (some 0)) = none := by
  intro indexed
  have hprogram : oneIndex.program =
      .node 0 (.block [.node 5 (.assign (.node 1 (.field "a" .int32 false true)) indexed none)]) := rfl
  have hwithin : indexed.Within oneIndex.program := by
    rw [hprogram]
    exact .child List.mem_cons_self (.child (by simp [Node.children]) (.self _))
  have hok : (oneIndex.compile (.empty oneIndex) .points {}).isOk = true := by decide +kernel
  obtain ⟨e, h⟩ := exists_ok_of_isOk hok
  obtain ⟨⟨program, spanOf, -, -, -, -, -, hunpack⟩, -, hreads, hplaces, -, hnamed, hindex, hentry⟩ :=
    indexing_reaches_position h
  obtain ⟨id, array, index, column, hlowers, hemits⟩ := hunpack _ _ _ _ hwithin
  refine ⟨e, spanOf, id, array, index, column, h, hlowers, hemits.imp ?_ ?_, hnamed _ _ _ _ rfl,
    hindex _ _ rfl (by decide), hentry _ _ _ _ (by decide) (by decide)⟩
  · rintro ⟨scopes, o, b, b', h⟩
    exact ⟨scopes, o, b, b', hreads _ _ _ _ _ _ _ _ _ h⟩
  · rintro ⟨scopes, p, b, b', h⟩
    exact ⟨scopes, p, b, b', hplaces _ _ _ _ _ _ _ _ _ h⟩

/-- An index of 64 bits that is beyond the last component reads the first one, and so does the column after the last
one the entry after its row. -/
theorem indices_stray :
    ((Ty.vector .int32 3).named? 4294967296 none = none ∧
      oneIndex.firstSlot? #[.int32 0, .vec3i 10 20 30, .scalar (.int64 4294967296)] = some (.int32 10)) ∧
    (Ty.matrix .int32 3).named? 0 (some 3) = none ∧
      twoIndices.firstSlot? #[.int32 0, .matrix ([1, 2, 3, 4, 5, 6, 7, 8, 9].map .int32), .int32 0, .int32 3] =
        some (.int32 4) := by
  decide +kernel

end Tree

end Elementwise
