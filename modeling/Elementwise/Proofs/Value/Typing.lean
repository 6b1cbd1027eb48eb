import Elementwise.Code.Instr
import Elementwise.Tree.Node
import Elementwise.Value.Convert
import Elementwise.Value.Operator
import Mathlib.Data.List.Forall2

/-!
# Values of a type

What it means for a value to have a type, and that conversion, operators and the access to components
respect it. Nothing forces the components of an array to be of one kind, or as many as its type says;
all of this is about values where they are. The sizes and kinds of arrays are those that a type with a
name has.
-/

namespace Elementwise

/-- A type that a name stands for. -/
def Ty.Nameable (ty : Ty) : Prop := ∃ name, Ty.ofName? name = some ty

/-- A type whose arrays have a kind and a size that arrays are made with. -/
def Ty.Regular : Ty → Prop
  | .vector kind n => kind.component = kind ∧ 2 ≤ n ∧ n ≤ 4
  | .matrix kind n => kind.entry = kind ∧ (n = 3 ∨ n = 4)
  | _ => True

instance : DecidablePred Ty.Regular
  | .scalar _ | .string | .void => isTrue trivial
  | .vector kind n => inferInstanceAs (Decidable (kind.component = kind ∧ 2 ≤ n ∧ n ≤ 4))
  | .matrix kind n => inferInstanceAs (Decidable (kind.entry = kind ∧ (n = 3 ∨ n = 4)))

/-- A type of scalars other than truth values, which arithmetic stays in. -/
def Ty.Computes (ty : Ty) : Prop := ∃ kind, ty.element? = some kind ∧ kind ≠ .bool

/-- A type with a name is regular. -/
theorem Ty.Nameable.regular {ty : Ty} (h : ty.Nameable) : ty.Regular := by
  obtain ⟨name, hname⟩ := h
  unfold ofName? at hname
  split at hname <;> try (rw [← Option.some.inj hname]; trivial)
  have hmem := List.mem_of_find?_eq_some hname
  simp only [named, ScalarKind.all, List.map_cons, List.map_nil, List.cons_append, List.nil_append, List.mem_cons,
    List.not_mem_nil, or_false] at hmem
  rcases hmem with rfl | rfl | rfl | rfl | rfl | rfl | rfl | rfl | rfl | rfl | rfl | rfl | rfl | rfl | rfl | rfl | rfl |
    rfl | rfl | rfl | rfl <;> decide

/-- A row and a column in range stand for a position in range. -/
theorem Ty.entry_lt {n row column : Nat} (hrow : row < n) (hcolumn : column < n) : row * n + column < n * n :=
  calc
    row * n + column < row * n + n := Nat.add_lt_add_left hcolumn _
    _ = (row + 1) * n := (Nat.succ_mul row n).symm
    _ ≤ n * n := Nat.mul_le_mul_right n hrow

theorem Ty.entry_div {n column : Nat} (row : Nat) (hcolumn : column < n) : (row * n + column) / n = row := by
  rw [Nat.mul_comm, Nat.mul_add_div (Nat.zero_lt_of_lt hcolumn), Nat.div_eq_of_lt hcolumn, Nat.add_zero]

theorem Ty.entry_mod {n column : Nat} (row : Nat) (hcolumn : column < n) : (row * n + column) % n = column := by
  rw [Nat.mul_comm, Nat.mul_add_mod, Nat.mod_eq_of_lt hcolumn]

/-- A position with its row and column exchanged is in range. -/
theorem Ty.exchanged_lt {n i : Nat} (hi : i < n * n) : i % n * n + i / n < n * n :=
  entry_lt (Nat.mod_lt i (Nat.pos_of_mul_pos_right (Nat.zero_lt_of_lt hi))) (Nat.div_lt_of_lt_mul hi)

namespace ScalarKind

@[simp] theorem kind_ofFloat (kind : ScalarKind) (x : Float) : (kind.ofFloat x).kind = kind := by cases kind <;> rfl

@[simp] theorem kind_ofInt64 (kind : ScalarKind) (n : Int64) : (kind.ofInt64 n).kind = kind := by cases kind <;> rfl

@[simp] theorem kind_zero (kind : ScalarKind) : kind.zero.kind = kind := kind_ofFloat kind _

@[simp] theorem component_component (kind : ScalarKind) : kind.component.component = kind.component := by
  cases kind <;> rfl

@[simp] theorem entry_entry (kind : ScalarKind) : kind.entry.entry = kind.entry := by cases kind <;> rfl

/-- The later of two kinds is one of them. -/
theorem promote_cases (a b : ScalarKind) : a.promote b = a ∨ a.promote b = b := by
  unfold promote
  split
  · exact .inr rfl
  · exact .inl rfl

end ScalarKind

namespace Scalar

/-- A scalar converted to a kind is of that kind. -/
@[simp] theorem kind_cast (s : Scalar) (kind : ScalarKind) : (s.cast kind).kind = kind := by
  cases s with
  | bool b =>
    change (if kind = .bool then bool b else kind.ofInt64 _).kind = kind
    split
    · next h => exact h.symm
    · exact ScalarKind.kind_ofInt64 ..
  | float | double => exact ScalarKind.kind_ofFloat ..
  | _ => exact ScalarKind.kind_ofInt64 ..

/-- Arithmetic stays in the kind of its left operand, unless that is a truth value. -/
theorem kind_arith {l : Scalar} (op : BinaryOp) (r : Scalar) (hl : l.kind ≠ .bool) : (l.arith op r).kind = l.kind := by
  unfold arith
  split
  · split
    · exact ScalarKind.kind_ofFloat ..
    · rfl
  · split
    · simp
    · rfl

/-- An operator on a scalar stays in its kind, unless it is negation of truth. -/
theorem kind_unaryScalar {s : Scalar} {op : UnaryOp} (hop : op ≠ .not) : (Value.unaryScalar op s).kind = s.kind := by
  cases op with
  | plus => rfl
  | not => exact absurd rfl hop
  | neg => cases s <;> rfl
  | bitNot =>
    change (Scalar.bitNot s).kind = s.kind
    unfold Scalar.bitNot
    split
    · exact ScalarKind.kind_ofInt64 ..
    · rfl

end Scalar

namespace Value

variable {a v : Value} {items : List Value} {kind : ScalarKind} {op : BinaryOp} {ty : Ty}

/-- A value has a type: a scalar of its kind, an array of its size with components of its kind. -/
inductive HasType : Value → Ty → Prop
  | scalar {s kind} (hkind : s.kind = kind) : HasType (.scalar s) (.scalar kind)
  | vector {items kind n} (hlength : items.length = n.toNat) (hitems : ∀ v ∈ items, v.scalarKind? = some kind) :
      HasType (.vector items) (.vector kind n)
  | matrix {items kind n} (hlength : items.length = n.toNat * n.toNat)
      (hitems : ∀ v ∈ items, v.scalarKind? = some kind) : HasType (.matrix items) (.matrix kind n)
  | string (s) : HasType (.string s) .string
  | void : HasType .void .void

/-- A value of a kind is a scalar of that kind. -/
theorem scalarKind?_eq_some (h : v.scalarKind? = some kind) : ∃ s, v = .scalar s ∧ s.kind = kind := by
  cases v with
  | scalar s => exact ⟨s, rfl, Option.some.inj h⟩
  | _ => cases h

/-- A value of a scalar type is a scalar of its kind. -/
theorem hasType_scalar_iff : v.HasType (.scalar kind) ↔ v.scalarKind? = some kind := by
  constructor
  · rintro ⟨rfl⟩
    rfl
  · intro h
    obtain ⟨s, rfl, hs⟩ := scalarKind?_eq_some h
    exact .scalar hs

/-- The kind of an array of scalars of one kind. -/
theorem elementKind_eq (h : ∀ v ∈ items, v.scalarKind? = some kind) (hne : items ≠ []) : elementKind items = kind := by
  cases items with
  | nil => exact absurd rfl hne
  | cons v rest =>
    obtain ⟨s, rfl, hs⟩ := scalarKind?_eq_some (h v List.mem_cons_self)
    exact hs

/-- A value of a regular type has no other. -/
theorem HasType.ty_eq (h : v.HasType ty) (hty : ty.Regular) : v.ty = ty := by
  cases h with
  | scalar hkind => rw [Value.ty, hkind]
  | @vector items kind n hlength hitems =>
    obtain ⟨-, hn, -⟩ := hty
    have hpos : 2 ≤ n.toNat := by simpa using UInt8.le_iff_toNat_le.mp hn
    rw [Value.ty, elementKind_eq hitems (by rintro rfl; simp at hlength; omega), hlength]
    simp
  | @matrix items kind n hlength hitems =>
    obtain ⟨-, hn⟩ := hty
    have hne : items ≠ [] := by
      rintro rfl
      rcases hn with rfl | rfl <;> simp at hlength
    rw [Value.ty, elementKind_eq hitems hne, hlength]
    rcases hn with rfl | rfl <;> rfl
  | string | void => rfl

/-- Values of types that are all the same. -/
theorem hasType_of_forall₂ {vs : List Value} {tys : List Ty} (h : List.Forall₂ HasType vs tys)
    (htys : ∀ t ∈ tys, t = ty) : ∀ v ∈ vs, v.HasType ty := by
  induction h with
  | nil => simp
  | cons hv _ ih =>
    rw [List.forall_mem_cons] at htys ⊢
    exact ⟨htys.1 ▸ hv, ih htys.2⟩

/-- The zero of a type has the type. -/
theorem hasType_zero (ty : Ty) : (zero ty).HasType ty := by
  have hitem (kind : ScalarKind) (n : Nat) :
      ∀ v ∈ List.replicate n (Value.scalar kind.zero), v.scalarKind? = some kind := by
    intro v hv
    rw [List.eq_of_mem_replicate hv, scalarKind?, ScalarKind.kind_zero]
  cases ty with
  | scalar kind => exact .scalar kind.kind_zero
  | vector kind n => exact .vector List.length_replicate (hitem kind _)
  | matrix kind n => exact .matrix List.length_replicate (hitem kind _)
  | string => exact .string _
  | void => exact .void

@[simp] theorem scalarKind?_castItem (kind : ScalarKind) (v : Value) : (castItem kind v).scalarKind? = some kind := by
  rw [castItem, scalarKind?, Scalar.kind_cast]

/-- A value converts to every type that its own type converts to. -/
theorem HasType.convert? {goal : Ty} (h : v.HasType ty) (hty : ty.Regular) (hconverts : ty.convertsTo goal = true) :
    ∃ w, v.convert? goal = some w ∧ w.HasType goal := by
  have hcast (kind : ScalarKind) (items : List Value) : ∀ w ∈ items.map (castItem kind), w.scalarKind? = some kind := by
    intro w hw
    obtain ⟨x, -, rfl⟩ := List.mem_map.mp hw
    exact scalarKind?_castItem kind x
  unfold Value.convert?
  by_cases hgoal : v.ty = goal
  · exact ⟨v, if_pos hgoal, hgoal ▸ (h.ty_eq hty).symm ▸ h⟩
  · rw [if_neg hgoal]
    have hne : ty ≠ goal := fun heq => hgoal (heq ▸ h.ty_eq hty)
    simp only [Ty.convertsTo, Bool.or_eq_true, beq_iff_eq, hne, false_or] at hconverts
    cases h with
    | @scalar s kind hkind =>
      cases goal with
      | scalar kind' => exact ⟨_, rfl, .scalar (Scalar.kind_cast ..)⟩
      | vector kind' n =>
        refine ⟨_, rfl, .vector List.length_replicate fun w hw => ?_⟩
        rw [List.eq_of_mem_replicate hw, scalarKind?, Scalar.kind_cast]
      | matrix kind' n =>
        refine ⟨_, rfl, .matrix (by simp) fun w hw => ?_⟩
        obtain ⟨i, -, rfl⟩ := List.mem_map.mp hw
        split
        · rw [scalarKind?, Scalar.kind_cast]
        · rw [scalarKind?, ScalarKind.kind_zero]
      | string | void => simp at hconverts
    | @vector items kind n hlength hitems =>
      cases goal with
      | vector kind' n' =>
        have hn : n = n' := by simpa using hconverts
        exact ⟨_, if_pos (hn ▸ hlength), .vector (by simpa using hn ▸ hlength) (hcast kind' items)⟩
      | _ => simp at hconverts
    | @matrix items kind n hlength hitems =>
      cases goal with
      | matrix kind' n' =>
        have hn : n = n' := by simpa using hconverts
        exact ⟨_, if_pos (hn ▸ hlength), .matrix (by simpa using hn ▸ hlength) (hcast kind' items)⟩
      | _ => simp at hconverts
    | string | void => cases goal <;> simp at hconverts hne

/-- A comparison gives a truth value. -/
theorem hasType_binary_compare (hop : op.opClass = .equality ∨ op.opClass = .relational) (a b : Value) :
    (binary op a b).HasType .bool := by
  cases op <;> first | exact .scalar rfl | simp [BinaryOp.opClass] at hop

/-- Arithmetic component by component stays in the kind of the left operands. -/
theorem scalarKind?_zipWith_arith (hkind : kind ≠ .bool) {as bs : List Value}
    (has : ∀ v ∈ as, v.scalarKind? = some kind) : ∀ v ∈ List.zipWith (arith op) as bs, v.scalarKind? = some kind := by
  induction as generalizing bs with
  | nil => simp
  | cons a as ih =>
    cases bs with
    | nil => simp
    | cons b bs =>
      obtain ⟨s, rfl, rfl⟩ := scalarKind?_eq_some (has a List.mem_cons_self)
      rw [List.zipWith_cons_cons, List.forall_mem_cons]
      exact ⟨congrArg some (Scalar.kind_arith op _ hkind), ih fun v hv => has v (List.mem_cons_of_mem _ hv)⟩

/-- Arithmetic on values of a type stays in the type. -/
theorem HasType.binary_arith (hop : op.opClass = .arithmetic ∨ op.opClass = .bitwise) {b : Value} (ha : a.HasType ty)
    (hb : b.HasType ty) (hty : ty.Computes) : (binary op a b).HasType ty := by
  have hscalar (l : Scalar) (r : Value) : binary op (.scalar l) r = .scalar (l.arith op r.number) := by
    cases op <;> first | rfl | simp [BinaryOp.opClass] at hop
  have hvector (as bs : List Value) : binary op (.vector as) (.vector bs) = .vector (as.zipWith (arith op) bs) := by
    cases op <;> first | rfl | simp [BinaryOp.opClass] at hop
  have hmatrix (as bs : List Value) : binary op (.matrix as) (.matrix bs) = .matrix (as.zipWith (arith op) bs) := by
    cases op <;> first | rfl | simp [BinaryOp.opClass] at hop
  obtain ⟨kind, hkind, hbool⟩ := hty
  cases ha with
  | scalar ha =>
    rw [hscalar]
    refine .scalar ((Scalar.kind_arith op _ ?_).trans ha)
    exact ha ▸ (Option.some.inj hkind).symm ▸ hbool
  | vector hlength hitems =>
    cases hb with
    | vector hlength' hitems' =>
      rw [hvector]
      refine .vector (by simp [hlength, hlength']) (scalarKind?_zipWith_arith ?_ hitems)
      exact (Option.some.inj hkind).symm ▸ hbool
  | matrix hlength hitems =>
    cases hb with
    | matrix hlength' hitems' =>
      rw [hmatrix]
      refine .matrix (by simp [hlength, hlength']) (scalarKind?_zipWith_arith ?_ hitems)
      exact (Option.some.inj hkind).symm ▸ hbool
  | string | void => cases hkind

/-- An operator on every component stays in the kind of the components. -/
theorem unaryItems_typed {op : UnaryOp} (hop : op ≠ .not) (h : ∀ v ∈ items, v.scalarKind? = some kind) :
    (unaryItems op items).length = items.length ∧ ∀ v ∈ unaryItems op items, v.scalarKind? = some kind := by
  induction items with
  | nil => simp [unaryItems]
  | cons v rest ih =>
    obtain ⟨s, rfl, rfl⟩ := scalarKind?_eq_some (h v List.mem_cons_self)
    obtain ⟨hlength, hrest⟩ := ih fun v hv => h v (List.mem_cons_of_mem _ hv)
    rw [unaryItems, List.forall_mem_cons]
    exact ⟨by simp [hlength], congrArg some (Scalar.kind_unaryScalar hop), hrest⟩

/-- An operator on one operand stays in its type, unless it is negation of truth. -/
theorem HasType.unary {op : UnaryOp} (hop : op ≠ .not) (ha : a.HasType ty) : (unary op a).HasType ty := by
  cases ha with
  | scalar ha => exact .scalar (ha ▸ Scalar.kind_unaryScalar hop)
  | vector hlength hitems =>
    obtain ⟨hlength', hitems'⟩ := unaryItems_typed hop hitems
    cases op with
    | not => exact absurd rfl hop
    | plus => exact .vector hlength hitems
    | neg | bitNot => exact .vector (hlength'.trans hlength) hitems'
  | matrix hlength hitems =>
    obtain ⟨hlength', hitems'⟩ := unaryItems_typed hop hitems
    cases op with
    | not => exact absurd rfl hop
    | plus => exact .matrix hlength hitems
    | neg | bitNot => exact .matrix (hlength'.trans hlength) hitems'
  | string s =>
    rw [Value.unary, if_neg hop]
    exact .string s
  | void =>
    rw [Value.unary, if_neg hop]
    exact .void

/-- Negation of a truth value is a truth value. -/
theorem HasType.unary_not (ha : a.HasType .bool) : (Value.unary .not a).HasType .bool := by
  cases ha with
  | scalar ha => exact .scalar rfl

/-- An array of as many scalars as its type wants has the type. -/
theorem hasType_pack (harray : ty.isArray = true) (hkind : ty.element? = some kind)
    (hlength : items.length = ty.componentCount) (hitems : ∀ v ∈ items, v.HasType (.scalar kind)) :
    (pack items ty).HasType ty := by
  have hitems' : ∀ v ∈ items, v.scalarKind? = some kind := fun v hv => hasType_scalar_iff.mp (hitems v hv)
  cases ty with
  | vector k n => exact .vector hlength (Option.some.inj hkind ▸ hitems')
  | matrix k n => exact .matrix hlength (Option.some.inj hkind ▸ hitems')
  | _ => cases harray

/-- A component has the component type. -/
theorem HasType.extractAt? {i w : Value} (h : v.HasType ty) (hw : v.extractAt? i = some w) :
    w.HasType ty.elementTy := by
  obtain ⟨n, -, hn⟩ := Option.bind_eq_some_iff.mp hw
  cases h with
  | vector _ hitems | matrix _ hitems => exact hasType_scalar_iff.mpr (hitems w (List.mem_of_getElem? hn))
  | _ => cases hn

/-- Replacing a component by one of its type keeps the type. -/
theorem HasType.insertAt {c : Value} (h : v.HasType ty) (hc : c.HasType ty.elementTy) (i : Value) :
    (v.insertAt i c).HasType ty := by
  have hset {items : List Value} {kind : ScalarKind} (hitems : ∀ v ∈ items, v.scalarKind? = some kind)
      (hc : c.HasType (.scalar kind)) (n : Nat) : ∀ v ∈ items.set n c, v.scalarKind? = some kind := by
    intro w hw
    rcases List.mem_or_eq_of_mem_set hw with hw | rfl
    · exact hitems w hw
    · exact hasType_scalar_iff.mp hc
  unfold Value.insertAt
  cases i.index? with
  | none => exact h
  | some n =>
    cases h with
    | vector hlength hitems => exact .vector (by simpa using hlength) (hset hitems hc n)
    | matrix hlength hitems => exact .matrix (by simpa using hlength) (hset hitems hc n)
    | scalar hkind => exact .scalar hkind
    | string s => exact .string s
    | void => exact .void

end Value

theorem Literal.hasType (l : Literal) : l.toValue.HasType l.toValue.ty := by
  cases l <;> first | exact .scalar rfl | exact .string _

/-- A native body answers arguments of some types with values of a type. -/
def NativeBody.Respects (body : NativeBody) (params : List Ty) (ret : Ty) : Prop :=
  ∀ vs result, List.Forall₂ Value.HasType vs params → body vs = some result → result.value.HasType ret

/-- What the voxel provides has its type. -/
theorem Intrinsic.hasType (op : Intrinsic) (c : Coord) : (op.value c).HasType op.ty := by
  cases op with
  | worldPosition => exact .vector rfl (by simp [Value.scalarKind?, Scalar.kind])
  | _ => exact .scalar rfl

end Elementwise
