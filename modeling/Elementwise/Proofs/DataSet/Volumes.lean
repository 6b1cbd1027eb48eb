import Elementwise.DataSet.Volumes
import Elementwise.Proofs.DataSet.Fields

/-!
# Sparse grids

The coordinates are in a strict total order, and a voxel that is given a value keeps a list of voxels in this order.
A grid gives back what was last put at a coordinate, and the grids of a volume are fields like any other.
-/

namespace Elementwise

/-! ## Coordinates in order -/

namespace Coord

variable {a b c : Coord}

/-- The order compares the first numbers in which two coordinates differ. -/
theorem before_iff : a.before b = true ↔ a.x.toInt < b.x.toInt ∨ (a.x.toInt = b.x.toInt ∧
    (a.y.toInt < b.y.toInt ∨ (a.y.toInt = b.y.toInt ∧ a.z.toInt < b.z.toInt))) := by
  simp [before, Int32.lt_iff_toInt_lt, Int32.toInt_inj]

/-- No coordinate is before itself. -/
theorem before_irrefl (a : Coord) : ¬ a.before a = true := by
  rw [before_iff]
  omega

/-- The order is transitive. -/
theorem before_trans (h : a.before b = true) (h' : b.before c = true) : a.before c = true := by
  rw [before_iff] at *
  omega

/-- Of two different coordinates one is before the other. -/
theorem before_of_not (h : ¬ a.before b = true) (hne : a ≠ b) : b.before a = true := by
  rw [before_iff] at *
  by_contra hnot
  have hx : a.x = b.x := Int32.toInt_inj.mp (by omega)
  have hy : a.y = b.y := Int32.toInt_inj.mp (by omega)
  have hz : a.z = b.z := Int32.toInt_inj.mp (by omega)
  refine hne ?_
  cases a
  cases b
  simp_all

end Coord

/-! ## One grid -/

namespace Grid

variable {g : Grid} {coord c : Coord} {value : Value} {voxels : List (Coord × Value)}

theorem lookup_cons (first c : Coord) (v : Value) (rest : List (Coord × Value)) :
    ((first, v) :: rest).lookup c = if c = first then some v else rest.lookup c := by
  by_cases hc : c = first
  · simp [hc]
  · rw [List.lookup_cons, beq_eq_false_iff_ne.mpr hc, if_neg hc]

/-- What stands at a coordinate after a value was put. -/
theorem lookup_insertVoxel (coord c : Coord) (value : Value) (voxels : List (Coord × Value)) :
    (insertVoxel coord value voxels).lookup c = if c = coord then some value else voxels.lookup c := by
  induction voxels with
  | nil => exact lookup_cons coord c value []
  | cons head rest ih =>
    obtain ⟨first, v⟩ := head
    rw [insertVoxel, lookup_cons]
    by_cases hbefore : first.before coord = true
    · -- the head stays, and is another coordinate than the one of the value
      have hne : first ≠ coord := fun heq => Coord.before_irrefl coord (heq ▸ hbefore)
      rw [if_pos hbefore, lookup_cons, ih]
      by_cases hc : c = first
      · rw [if_pos hc, if_neg (hc ▸ hne), if_pos hc]
      · rw [if_neg hc, if_neg hc]
    · rw [if_neg hbefore]
      by_cases hfirst : first = coord
      · rw [if_pos hfirst, lookup_cons]
        by_cases hc : c = coord
        · rw [if_pos hc, if_pos hc]
        · rw [if_neg hc, if_neg hc, if_neg (hfirst ▸ hc)]
      · rw [if_neg hfirst, lookup_cons, lookup_cons]

/-- A later value at the same coordinate replaces an earlier one. -/
theorem insertVoxel_insertVoxel (coord : Coord) (value other : Value) (voxels : List (Coord × Value)) :
    insertVoxel coord value (insertVoxel coord other voxels) = insertVoxel coord value voxels := by
  have hirrefl := Coord.before_irrefl coord
  induction voxels with
  | nil => simp [insertVoxel, hirrefl]
  | cons head rest ih =>
    obtain ⟨first, v⟩ := head
    by_cases hbefore : first.before coord = true
    · simp [insertVoxel, hbefore, ih]
    · by_cases hfirst : first = coord
      · simp [insertVoxel, hfirst, hirrefl]
      · simp [insertVoxel, hbefore, hfirst, hirrefl]

/-- The coordinates that have a value after one was put. -/
theorem mem_map_insertVoxel :
    c ∈ (insertVoxel coord value voxels).map Prod.fst ↔ c = coord ∨ c ∈ voxels.map Prod.fst := by
  induction voxels with
  | nil => simp [insertVoxel]
  | cons head rest ih =>
    obtain ⟨first, v⟩ := head
    rw [insertVoxel]
    by_cases hbefore : first.before coord = true
    · rw [if_pos hbefore, List.map_cons, List.mem_cons, ih, List.map_cons, List.mem_cons]
      tauto
    · rw [if_neg hbefore]
      by_cases hfirst : first = coord <;> simp [hfirst]

/-- The coordinates stay in order when a value is put. -/
theorem pairwise_insertVoxel (h : (voxels.map Prod.fst).Pairwise fun a b => a.before b = true) :
    ((insertVoxel coord value voxels).map Prod.fst).Pairwise fun a b => a.before b = true := by
  induction voxels with
  | nil => simp [insertVoxel]
  | cons head rest ih =>
    obtain ⟨first, v⟩ := head
    obtain ⟨hfirst, hrest⟩ := List.pairwise_cons.mp h
    rw [insertVoxel]
    by_cases hbefore : first.before coord = true
    · rw [if_pos hbefore, List.map_cons, List.pairwise_cons]
      refine ⟨fun c hc => ?_, ih hrest⟩
      rcases mem_map_insertVoxel.mp hc with rfl | hc
      · exact hbefore
      · exact hfirst c hc
    · rw [if_neg hbefore]
      by_cases heq : first = coord
      · rw [if_pos heq]
        exact heq ▸ h
      · have hafter := Coord.before_of_not hbefore heq
        rw [if_neg heq, List.map_cons, List.pairwise_cons]
        refine ⟨fun c hc => ?_, h⟩
        rcases List.mem_cons.mp hc with rfl | hc
        · exact hafter
        · exact Coord.before_trans hafter (hfirst c hc)

/-- Coordinates that are put one after another stand in order. -/
theorem pairwise_foldl_insertVoxel (coords : List Coord) (value : Value)
    (h : (voxels.map Prod.fst).Pairwise fun a b => a.before b = true) :
    ((coords.foldl (fun voxels c => insertVoxel c value voxels) voxels).map Prod.fst).Pairwise
      fun a b => a.before b = true := by
  induction coords generalizing voxels with
  | nil => exact h
  | cons first rest ih => exact ih (pairwise_insertVoxel h)

/-- Coordinates that are put one after another are all there. -/
theorem mem_map_foldl_insertVoxel (coords : List Coord) (value : Value) :
    c ∈ (coords.foldl (fun voxels c => insertVoxel c value voxels) voxels).map Prod.fst ↔
      c ∈ coords ∨ c ∈ voxels.map Prod.fst := by
  induction coords generalizing voxels with
  | nil => simp
  | cons first rest ih =>
    rw [List.foldl_cons, ih, mem_map_insertVoxel, List.mem_cons]
    tauto

/-- The active voxels are those that have a value of their own. -/
theorem mem_active_iff : c ∈ g.active ↔ (g.voxels.lookup c).isSome = true := by
  rw [active, List.mem_map, ← not_iff_not, Option.not_isSome_iff_eq_none, List.lookup_eq_none_iff]
  constructor
  · intro hnot entry hentry
    exact bne_iff_ne.mpr fun heq => hnot ⟨entry, hentry, heq.symm⟩
  · rintro hall ⟨entry, hentry, heq⟩
    exact bne_iff_ne.mp (hall entry hentry) heq.symm

instance : FieldData Grid Coord where
  ty := Grid.ty
  value := get
  put c v g := g.set c v
  value_put_of_ne v g hne := by simp [get, set, lookup_insertVoxel, hne]
  put_put c v w g := by simp [set, insertVoxel_insertVoxel]

end Grid

/-! ## Grids as fields -/

namespace VolumeSet

variable {d : VolumeSet}

/-- The entries that a volume lacks. -/
def missing (d : VolumeSet) (entries : List Entry) : List Entry := entries.filter fun e => e.name ∉ d.grids.names

/-- Add an empty grid for each entry, zero everywhere. -/
def addEmpty (d : VolumeSet) (entries : List Entry) : VolumeSet :=
  ⟨⟨d.grids.entries ++ entries.map fun e => (e.name, { ty := e.ty, background := .zero e.ty })⟩⟩

instance : HasFields VolumeSet Coord Grid where
  table := grids
  fresh _ e := { ty := e.ty, background := .zero e.ty }
  add := addEmpty
  ty_fresh _ _ := rfl
  fresh_add _ _ _ := rfl
  table_add _ _ := rfl
  add_nil d := by simp [addEmpty]
  add_append d a b := by simp [addEmpty]
  handle_eq _ _ _ := rfl
  create_cases {d e} hnew := by
    obtain ⟨hnot, hinsert, hhandle⟩ := Table.insert_of_notMem hnew { ty := e.ty, background := .zero e.ty }
    simp only [DataSet.create, create, hnot, Bool.false_eq_true, if_false, handle, hhandle Grid.ty]
    rw [hinsert]
    split
    · exact .inr ⟨_, rfl⟩
    · exact .inl rfl
  read_eq d i c := by
    simp only [DataSet.read, read, FieldData.value]
    cases d.grids.at? i <;> rfl
  table_write _ _ _ _ := rfl

end VolumeSet

end Elementwise
