import Elementwise.DataSet.Basic
import Elementwise.Proofs.Table
import Elementwise.Registry.Basic

/-!
# Data sets as tables of fields

Points and volumes keep their fields in the same way: in a table, where a handle is a position and a field that
is created stands at the end, so that no handle moves. Each element owns its part of every field. What is said here
of reaching, creating, reading and writing a field holds of both.
-/

namespace Elementwise

/-- What a field holds: a value of one type for each element. -/
class FieldData (F : Type) (E : outParam Type) where
  ty : F → Ty
  value : F → E → Value
  /-- Change the value at an element. -/
  put : E → Value → F → F
  /-- What is put at an element is not seen at another one. -/
  value_put_of_ne {x y : E} (v : Value) (f : F) : y ≠ x → value (put x v f) y = value f y
  put_put (x : E) (v w : Value) (f : F) : put x v (put x w f) = put x v f

namespace FieldData

variable {F E : Type} [FieldData F E]

/-- Change the value at an element, if there is one to put. -/
def put? (x : E) (v : Option Value) (f : F) : F := v.elim f fun v => put x v f

/-- What is put last at an element is what counts. -/
theorem put_put? (x : E) (v : Value) (w : Option Value) (f : F) : put x v (put? x w f) = put x v f := by
  cases w with
  | none => rfl
  | some w => exact put_put x v w f

/-- Change the values at elements one after another, where there is one to put. -/
def putAll (elements : List E) (new : E → Option Value) (f : F) : F := elements.foldl (fun f x => put? x (new x) f) f

/-- Nothing changes if nothing is put. -/
@[simp] theorem putAll_none (elements : List E) : (putAll elements fun _ => none : F → F) = id := by
  funext f
  induction elements with
  | nil => rfl
  | cons x rest ih => exact ih

end FieldData

open FieldData

/-- A field that is inserted under a new name stands at the end, and is reached there. -/
theorem Table.insert_of_notMem {F : Type} {t : Table F} {name : String} (h : name ∉ t.names) (f : F) :
    t.contains name = false ∧ t.insert name f = ⟨t.entries ++ [(name, f)]⟩ ∧
      ∀ tyOf : F → Ty, (t.insert name f).handle tyOf name (tyOf f) = .ok t.size := by
  have hindex := index?_eq_none_iff.mpr h
  have hinsert : t.insert name f = ⟨t.entries ++ [(name, f)]⟩ := by rw [Table.insert, hindex]
  have hat : (t.insert name f).index? name = some t.size := by
    rw [index?] at hindex
    simp [hinsert, index?, size, List.findIdx?_append, hindex]
  refine ⟨by rw [contains, get?_eq_none_of_index? hindex]; rfl, hinsert, fun tyOf => ?_⟩
  rw [Table.handle, hat, get?_insert, if_pos rfl]
  exact if_pos rfl

/-- A data set that keeps its fields in a table. -/
class HasFields (D : Type) (E F : outParam Type) [DataSet D E] [FieldData F E] where
  table : D → Table F
  /-- The field that is created for an entry. -/
  fresh : D → Entry → F
  /-- Create a field for each entry. -/
  add : D → List Entry → D
  ty_fresh (d : D) (e : Entry) : ty (fresh d e) = e.ty
  fresh_add (d : D) (entries : List Entry) (e : Entry) : fresh (add d entries) e = fresh d e
  table_add (d : D) (entries : List Entry) :
    table (add d entries) = ⟨(table d).entries ++ entries.map fun e => (e.name, fresh d e)⟩
  add_nil (d : D) : add d [] = d
  add_append (d : D) (a b : List Entry) : add d (a ++ b) = add (add d a) b
  handle_eq (d : D) (name : String) (t : Ty) : DataSet.handle d name t = (table d).handle ty name t
  /-- A missing field is added at the end, if such a field can be created. -/
  create_cases {d : D} {e : Entry} : e.name ∉ (table d).names →
    DataSet.create d e.name e.ty (.zero e.ty) = .ok ((table d).size, add d [e]) ∨
      ∃ cause, DataSet.create d e.name e.ty (.zero e.ty) = .error cause
  read_eq (d : D) (i : Handle) (x : E) :
    DataSet.read d i x = (((table d).at? i).map fun entry => value entry.2 x).getD .void
  table_write (d : D) (i : Handle) (x : E) (v : Value) :
    table (DataSet.write d i x v) = (table d).modifyAt i (put x v)

namespace HasFields

variable {D E F : Type} [DataSet D E] [FieldData F E] [fields : HasFields D E F] {d : D} {e : Entry}
  {entries : List Entry} {name : String} {i : Handle}

/-- The entries that a data set lacks. -/
def missing (d : D) (entries : List Entry) : List Entry := entries.filter fun e => e.name ∉ (table d).names

/-- The field of an entry: the one that the data set has, or the one that is created for it. -/
def field (d : D) (e : Entry) : F := ((table d).get? e.name).getD (fresh d e)

/-- A data set has a field of the name and the type of an entry, at a handle. -/
def Reaches (d : D) (e : Entry) (i : Handle) : Prop :=
  (table d).index? e.name = some i ∧ ∃ f, (table d).get? e.name = some f ∧ ty f = e.ty

/-! ## Reaching a field -/

/-- A field is reached, or has another type, or is missing. -/
theorem handle_cases (d : D) (e : Entry) :
    (∃ i, Reaches d e i ∧ DataSet.handle d e.name e.ty = .ok i) ∨
      (∃ found, DataSet.handle d e.name e.ty = .error (.typeMismatch e.name e.ty found)) ∨
      (e.name ∉ (table d).names ∧ DataSet.handle d e.name e.ty = .error (.missing e.name)) := by
  rw [handle_eq, Table.handle]
  cases hi : (table d).index? e.name with
  | none => exact .inr (.inr ⟨Table.index?_eq_none_iff.mp hi, rfl⟩)
  | some i =>
    obtain ⟨f, -, hget⟩ := Table.at?_of_index? hi
    rw [hget]
    by_cases hty : ty f = e.ty
    · exact .inl ⟨i, ⟨hi, f, hget, hty⟩, if_pos hty⟩
    · exact .inr (.inl ⟨ty f, if_neg hty⟩)

/-- A name that is reached is there. -/
theorem Reaches.mem_names (h : Reaches d e i) : e.name ∈ (table d).names := by
  by_contra hnot
  exact absurd (h.1.symm.trans (Table.index?_eq_none_iff.mpr hnot)) (by simp)

/-- What is read through a handle is the value of the field. -/
theorem Reaches.read (h : Reaches d e i) (x : E) : DataSet.read d i x = value (field d e) x := by
  obtain ⟨f, hat, hget⟩ := Table.at?_of_index? h.1
  rw [read_eq, hat, field, hget]
  rfl

/-! ## Creating fields -/

theorem names_add : (table (add d entries)).names = (table d).names ++ entries.map Entry.name := by
  simp [table_add, Table.names, Function.comp_def]

/-- A field keeps its handle when others are added. -/
theorem index?_add (h : (table d).index? name = some i) : (table (add d entries)).index? name = some i := by
  rw [Table.index?_eq_names] at h ⊢
  rw [names_add, List.findIdx?_append, h]
  rfl

/-- A field stays as it is when others are added. -/
theorem get?_add_of_notMem (h : name ∉ entries.map Entry.name) :
    (table (add d entries)).get? name = (table d).get? name := by
  have hnone : (entries.map fun e => (e.name, (fresh d e : F))).lookup name = none := by
    rw [List.lookup_eq_none_iff]
    intro entry hentry
    obtain ⟨e, he, rfl⟩ := List.mem_map.mp hentry
    exact bne_iff_ne.mpr fun heq => h (List.mem_map.mpr ⟨e, he, heq.symm⟩)
  rw [table_add, Table.get?, List.lookup_append, hnone, Option.or_none]
  rfl

/-- A field that was added is fresh. -/
theorem get?_add_of_mem (hnodup : (entries.map Entry.name).Nodup) (he : e ∈ entries)
    (hnew : e.name ∉ (table d).names) : (table (add d entries)).get? e.name = some (fresh d e) := by
  obtain ⟨before, after, rfl⟩ := List.append_of_mem he
  rw [List.map_append, List.map_cons, List.nodup_append] at hnodup
  obtain ⟨-, hafter, hbefore⟩ := hnodup
  -- the fields after this one have other names, and so have all before it
  rw [← List.singleton_append, ← List.append_assoc, add_append,
    get?_add_of_notMem (List.nodup_cons.mp hafter).1, add_append]
  have hnone : (table (add d before)).index? e.name = none := by
    rw [Table.index?_eq_none_iff, names_add, List.mem_append, not_or]
    exact ⟨hnew, fun hmem => hbefore _ hmem _ List.mem_cons_self rfl⟩
  have hlookup : (table (add d before)).entries.lookup e.name = none := Table.get?_eq_none_of_index? hnone
  rw [table_add, Table.get?, List.lookup_append, hlookup]
  simp [fresh_add]

/-- A handle stays good when other fields are added. -/
theorem Reaches.add (h : Reaches d e i) (hnew : e.name ∉ entries.map Entry.name) :
    Reaches (HasFields.add d entries) e i :=
  ⟨index?_add h.1, by rw [get?_add_of_notMem hnew]; exact h.2⟩

/-- A field that was added last is reached at the end. -/
theorem reaches_add (hnew : e.name ∉ (table d).names) : Reaches (add d [e]) e (table d).size := by
  have hindex := Table.index?_eq_none_iff.mpr hnew
  refine ⟨?_, _, get?_add_of_mem (by simp) List.mem_cons_self hnew, ty_fresh d e⟩
  rw [Table.index?_eq_names] at hindex ⊢
  rw [names_add, List.findIdx?_append, hindex]
  simp [Table.names, Table.size]

/-- The entries that are missing among entries and one more. -/
theorem missing_concat (d : D) (entries : List Entry) (e : Entry) :
    missing d (entries ++ [e]) = if e.name ∈ (table d).names then missing d entries else missing d entries ++ [e] := by
  by_cases he : e.name ∈ (table d).names <;> simp [missing, he]

/-- A field that was there stays as it is when what is missing is added. -/
theorem get?_add_missing (hname : name ∈ (table d).names) :
    (table (add d (missing d entries))).get? name = (table d).get? name := by
  apply get?_add_of_notMem
  intro hmem
  obtain ⟨e, he, rfl⟩ := List.mem_map.mp hmem
  exact absurd hname (by simpa using (List.mem_filter.mp he).2)

/-- Once what is missing was added, every entry has its field. -/
theorem field_add_missing (hnodup : (entries.map Entry.name).Nodup) (he : e ∈ entries) :
    field (add d (missing d entries)) e = field d e := by
  by_cases hname : e.name ∈ (table d).names
  · obtain ⟨f, hf⟩ := Table.mem_names_iff.mp hname
    rw [field, get?_add_missing hname, field, hf]
    rfl
  · have hmem : e ∈ missing d entries := List.mem_filter.mpr ⟨he, by simpa using hname⟩
    have hmissing : ((missing d entries).map Entry.name).Nodup := hnodup.sublist (List.filter_sublist.map _)
    have hnone := Table.get?_eq_none_of_index? (Table.index?_eq_none_iff.mpr hname)
    rw [field, get?_add_of_mem hmissing hmem hname, field, hnone]
    rfl

/-! ## Writing fields -/

include fields in
/-- What is written at an element is not seen at another one. -/
theorem read_write_of_ne {x y : E} (hne : y ≠ x) (d : D) (i j : Handle) (v : Value) :
    DataSet.read (DataSet.write d i x v) j y = DataSet.read d j y := by
  rw [read_eq, table_write, Table.at?_modifyAt, read_eq]
  by_cases hij : i = j
  · rw [if_pos hij, Option.map_map]
    congr 2
    funext entry
    exact value_put_of_ne v entry.2 hne
  · rw [if_neg hij]

end HasFields

end Elementwise
