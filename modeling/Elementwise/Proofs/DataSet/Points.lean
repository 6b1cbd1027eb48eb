import Elementwise.DataSet.Points
import Elementwise.Proofs.DataSet.Fields

/-!
# Points with attributes

A point set holds one value for each attribute and point. The attributes of a point set are fields like any other: what
is created stands at the end, where it moves no handle, and writes change a column value by value.
-/

namespace Elementwise

namespace PointSet

variable {d : PointSet} {name : String} {i : Handle} {p : Nat}

/-- Every attribute has a value for each point. -/
def Complete (d : PointSet) : Prop := ∀ name c, d.column? name = some c → c.values.size = d.size

/-- The value of an attribute at a point, by name. -/
def value? (d : PointSet) (name : String) (point : Nat) : Option Value :=
  (d.column? name).bind fun column => column.values[point]?

/-! ## Building -/

/-- A point set without attributes. -/
theorem complete_new (size : Nat) : Complete { size } := by
  intro name c hc
  simp [column?, Table.get?] at hc

/-- A column that has a value for each point may be put in. -/
theorem Complete.insert (h : d.Complete) {c : Column} (hc : c.values.size = d.size) (name : String) :
    Complete { d with columns := d.columns.insert name c } := by
  intro other c' hc'
  rw [column?, Table.get?_insert] at hc'
  split at hc'
  · obtain rfl := Option.some.inj hc'
    exact hc
  · exact h other c' hc'

/-- An attribute may be put in with any number of values. -/
theorem Complete.setValues (h : d.Complete) (name : String) (ty : Ty) (values : List Value) :
    (d.setValues name ty values).Complete := by
  apply h.insert
  simp only [List.size_toArray, List.length_append, List.length_take, List.length_replicate]
  omega

/-! ## Attributes as fields -/

/-- The entries that a data set lacks. -/
def missing (d : PointSet) (entries : List Entry) : List Entry := entries.filter fun e => e.name ∉ d.columns.names

/-- Add an attribute for each entry, zero everywhere. -/
def addZeros (d : PointSet) (entries : List Entry) : PointSet :=
  { d with columns := ⟨d.columns.entries ++
      entries.map fun e => (e.name, ⟨e.ty, Array.replicate d.size (.zero e.ty)⟩)⟩ }

/-- The value of an entry at a point; it is zero if the data set lacks the entry. -/
def initial (d : PointSet) (e : Entry) (point : Nat) : Value := (d.value? e.name point).getD (.zero e.ty)

/-- A column has no value beyond the last point. -/
instance : FieldData Column Nat where
  ty := Column.ty
  value column point := column.values[point]?.getD .void
  put point v column := { column with values := column.values.setIfInBounds point v }
  value_put_of_ne v column hne := by simp [Ne.symm hne]
  put_put point v w column := by simp

instance : HasFields PointSet Nat Column where
  table := columns
  fresh d e := ⟨e.ty, Array.replicate d.size (.zero e.ty)⟩
  add := addZeros
  ty_fresh _ _ := rfl
  fresh_add _ _ _ := rfl
  table_add _ _ := rfl
  add_nil d := by simp [addZeros]
  add_append d a b := by simp [addZeros]
  handle_eq _ _ _ := rfl
  create_cases {d e} hnew := by
    obtain ⟨hnot, hinsert, hhandle⟩ := Table.insert_of_notMem hnew ⟨e.ty, Array.replicate d.size (.zero e.ty)⟩
    simp only [DataSet.create, create, hnot, Bool.false_eq_true, if_false, handle, hhandle Column.ty]
    rw [hinsert]
    split
    · exact .inr ⟨_, rfl⟩
    · exact .inl rfl
  read_eq d i p := by
    simp only [DataSet.read, read, FieldData.value]
    cases d.columns.at? i <;> rfl
  table_write _ _ _ _ := rfl

/-- The added attributes have a value for each point. -/
theorem Complete.addZeros (h : d.Complete) (entries : List Entry) : (d.addZeros entries).Complete := by
  intro name c hc
  rw [column?, Table.get?, PointSet.addZeros, List.lookup_append] at hc
  cases hold : d.columns.entries.lookup name with
  | some c' =>
    obtain rfl : c' = c := by simpa [hold] using hc
    exact h name c' hold
  | none =>
    rw [hold, Option.none_or] at hc
    obtain ⟨before, after, heq, -⟩ := List.lookup_eq_some_iff.mp hc
    have hmem : (name, c) ∈ entries.map fun e =>
        (e.name, (⟨e.ty, Array.replicate d.size (.zero e.ty)⟩ : Column)) := by simp [heq]
    obtain ⟨e, -, he⟩ := List.mem_map.mp hmem
    obtain rfl := congrArg Prod.snd he
    simp [PointSet.addZeros]

/-- The value of the field of an entry at a point, where every attribute has one. -/
theorem value_field (h : d.Complete) (e : Entry) (hp : p < d.size) :
    FieldData.value (HasFields.field d e) p = d.initial e p := by
  cases hc : d.columns.get? e.name with
  | none => simp [HasFields.field, HasFields.table, HasFields.fresh, FieldData.value, initial, value?, column?, hc, hp]
  | some c =>
    have hsize := h e.name c hc
    have hlt : p < c.values.size := by omega
    simp [HasFields.field, HasFields.table, FieldData.value, initial, value?, column?, hc, hlt]

end PointSet

/-- Columns of one type with the same values are the same. -/
theorem Column.ext {c c' : Column} (hty : c.ty = c'.ty) (hvalues : c.values = c'.values) : c = c' := by
  cases c
  cases c'
  simp_all

/-- A column in which some points were given values. -/
theorem Column.putAll_eq (points : List Nat) (new : Nat → Option Value) (c : Column) :
    let after := FieldData.putAll points new c
    after.ty = c.ty ∧ after.values.size = c.values.size ∧ ∀ p, after.values[p]? =
      c.values[p]?.map ((if p ∈ points then new p else none).getD ·) := by
  induction points generalizing c with
  | nil => simp [FieldData.putAll]
  | cons first rest ih =>
    rw [FieldData.putAll, List.foldl_cons]
    cases hfirst : new first with
    | none =>
      obtain ⟨hty, hsize, hvalues⟩ := ih c
      refine ⟨hty, hsize, fun p => (hvalues p).trans ?_⟩
      by_cases hp : p = first
      · simp [hp, hfirst]
      · simp [hp]
    | some v =>
      obtain ⟨hty, hsize, hvalues⟩ := ih (FieldData.put first v c)
      refine ⟨hty, hsize.trans (Array.size_setIfInBounds ..), fun p => (hvalues p).trans ?_⟩
      by_cases hp : p = first
      · subst hp
        by_cases hlt : p < c.values.size <;> by_cases hrest : p ∈ rest <;> simp [FieldData.put, hlt, hrest, hfirst]
      · simp [FieldData.put, Array.getElem?_setIfInBounds_ne (Ne.symm hp), hp]

end Elementwise
