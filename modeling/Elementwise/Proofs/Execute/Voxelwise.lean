import Elementwise.Proofs.Compile.Slots
import Elementwise.Proofs.DataSet.Volumes
import Elementwise.Proofs.Execute.PutBack
import Elementwise.Proofs.Registry.Agreement

/-!
# Running over voxels

A program over volumes runs once on every voxel that was active in a grid that it writes, or in any of its grids if
it writes none, in the order of the coordinates. The voxels are found before the first of them is run, so what a run
makes active is not run itself. A voxel is active afterwards if it was, or if its run wrote the grid, and nothing but
what was written has changed, whatever the size of the chunks.
-/

namespace Elementwise

/-! ## The grids after a run -/

/-- A grid in which some voxels were given values. -/
theorem Grid.putAll_eq (voxels : List Coord) (new : Coord → Option Value) (g : Grid) :
    let after := FieldData.putAll voxels new g
    after.ty = g.ty ∧ after.background = g.background ∧ ∀ c, after.voxels.lookup c =
      (if c ∈ voxels then new c else none).or (g.voxels.lookup c) := by
  induction voxels generalizing g with
  | nil => simp [FieldData.putAll]
  | cons first rest ih =>
    rw [FieldData.putAll, List.foldl_cons]
    cases hfirst : new first with
    | none =>
      obtain ⟨hty, hbackground, hlookup⟩ := ih g
      refine ⟨hty, hbackground, fun c => (hlookup c).trans ?_⟩
      by_cases hc : c = first
      · simp [hc, hfirst]
      · simp [hc]
    | some v =>
      obtain ⟨hty, hbackground, hlookup⟩ := ih (g.set first v)
      refine ⟨hty, hbackground, fun c => (hlookup c).trans ?_⟩
      rw [set, lookup_insertVoxel]
      by_cases hc : c = first
      · by_cases hrest : first ∈ rest <;> simp [hc, hrest, hfirst]
      · simp [hc]

namespace VolumeSet

/-- The grid of an entry; it is empty and zero if the volume lacks the entry. -/
def gridOf (d : VolumeSet) (e : Entry) : Grid := (d.grid? e.name).getD { ty := e.ty, background := .zero e.ty }

/-- A voxel on which a program runs: one that is active in a grid that the program writes, or in any of its grids if it
writes none. -/
def Visits (d : VolumeSet) (r : Registry) (c : Coord) : Prop :=
  ∃ e ∈ (if r.writable = [] then r.list else r.writable), c ∈ (d.gridOf e).active

/-- What a run over voxels makes of a volume if each voxel that is run ends in a given state. The entries that were
missing and are written are created at the end. A grid that is written keeps its type and its background; a voxel of it
is active if it was, or if its run wrote the slot of the grid, and then has what was written. Every other grid is what
it was. -/
structure RunsTo (r : Registry) (voxels : List Coord) (final : Coord → ElementState) (before after : VolumeSet) :
    Prop where
  names : after.grids.names = before.grids.names ++ (before.missing r.writable).map Entry.name
  kept : ∀ name, (∀ e ∈ r.writable, e.name ≠ name) → after.grid? name = before.grid? name
  grid : ∀ i e, r.at? i = some e → ∃ g, after.grid? e.name = some g ∧ g.ty = e.ty ∧
    g.background = (before.gridOf e).background ∧
    (∀ c, c ∈ g.active ↔ c ∈ (before.gridOf e).active ∨
      (e.writable = true ∧ c ∈ voxels ∧ (final c).written[i]? = some true)) ∧
    ∀ c, some (g.get c) =
      if e.writable = true ∧ c ∈ voxels ∧ (final c).written[i]? = some true then (final c).read? i
      else some ((before.gridOf e).get c)

end VolumeSet

namespace Binding.Binds

open HasFields VolumeSet

variable {r : Registry} {start : VolumeSet} {b : Binding VolumeSet} {voxels : List Coord}
  {final : Coord → ElementState}

section

variable (h : b.Binds start r.list)

include h

/-- The bound volume, with what each voxel wrote put back, is what a run over voxels makes. -/
theorem runsToVoxels (hnodup : (r.list.map Entry.name).Nodup)
    (hfinal : ∀ c ∈ voxels, (final c).values.size = r.list.length) :
    VolumeSet.RunsTo r voxels final start (scatterAll (r.writeTargets b.handles) final b.data voxels) where
  names := by
    refine (names_scatterAll _ final b.data voxels).trans ?_
    rw [h.data, h.missing_writable]
    exact names_add (D := VolumeSet)
  kept name hname := h.get?_scatterAll_of_unwritten hname voxels
  grid slot e he := by
    obtain ⟨i, -, hi⟩ := h.reaches he
    obtain ⟨g, hg, hty⟩ := hi.2
    have hgrid : start.gridOf e = g := by
      have hfield : field b.data e = field start e :=
        h.field_eq hnodup (List.mem_of_getElem? (r.getElem?_list slot ▸ he))
      rw [field, hg] at hfield
      exact hfield.symm
    obtain ⟨hty', hbackground, hlookup⟩ := Grid.putAll_eq voxels
      (fun c => putTo? (r.writeTargets b.handles) (final c).changes i) g
    refine ⟨_, (get?_scatterAll final voxels hi.1).trans (by rw [hg, Option.map_some]), hty'.trans hty,
      hbackground.trans (by rw [hgrid]), fun c => ?_, fun c => ?_⟩
    · rw [Grid.mem_active_iff, hlookup, h.putTo?_eq hnodup he hi hfinal, hgrid, Grid.mem_active_iff]
      split
      · next hwrote =>
        obtain ⟨v, hv⟩ := Registry.exists_read? he (hfinal c hwrote.2.1)
        simp [hwrote, hv]
      · next hwrote => simp [hwrote]
    · rw [Grid.get, hlookup, h.putTo?_eq hnodup he hi hfinal, hbackground, hgrid, Grid.get]
      split
      · next hwrote =>
        obtain ⟨v, hv⟩ := Registry.exists_read? he (hfinal c hwrote.2.1)
        simp [hv]
      · rfl

/-! ## The voxels that are run -/

/-- A handle is that of an entry. -/
theorem mem_handles {i : Handle} : i ∈ b.handles ↔ ∃ e ∈ r.list, Reaches b.data e i := by
  constructor
  · intro hi
    obtain ⟨slot, hslot⟩ := List.getElem?_of_mem hi
    have hlt : slot < r.list.length := h.handles.length_eq ▸ (List.getElem?_eq_some_iff.mp hslot).1
    have he : r.at? slot = some r.list[slot] := r.getElem?_list slot ▸ List.getElem?_eq_getElem hlt
    obtain ⟨j, hj, hreaches⟩ := h.reaches he
    obtain rfl := Option.some.inj (hslot.symm.trans hj)
    exact ⟨_, List.getElem_mem hlt, hreaches⟩
  · rintro ⟨e, he, hi⟩
    obtain ⟨slot, hslot⟩ := List.getElem?_of_mem he
    obtain ⟨j, hj, hreaches⟩ := h.reaches (r.getElem?_list slot ▸ hslot)
    obtain rfl := Option.some.inj (hi.1.symm.trans hreaches.1)
    exact List.mem_of_getElem? hj

/-- A handle to write back to is that of a writable entry. -/
theorem mem_targets {i : Handle} :
    i ∈ (r.writeTargets b.handles).filterMap id ↔ ∃ e ∈ r.writable, Reaches b.data e i := by
  have hslots : i ∈ (r.writeTargets b.handles).filterMap id ↔
      ∃ slot : Nat, (r.writeTargets b.handles)[slot]?.join = some i := by
    rw [List.mem_filterMap]
    simp only [id_eq, exists_eq_right, List.mem_iff_getElem?, Option.join_eq_some_iff]
  rw [hslots]
  constructor
  · rintro ⟨slot, htarget⟩
    obtain ⟨e, he, hwritable, hhandle⟩ := Registry.writeTargets_eq_some.mp htarget
    obtain ⟨j, hj, hreaches⟩ := h.reaches (r.getElem?_list slot ▸ he)
    obtain rfl := Option.some.inj (hhandle.symm.trans hj)
    exact ⟨e, List.mem_filter.mpr ⟨List.mem_of_getElem? he, hwritable⟩, hreaches⟩
  · rintro ⟨e, he, hi⟩
    obtain ⟨hmem, hwritable⟩ := List.mem_filter.mp he
    obtain ⟨slot, hslot⟩ := List.getElem?_of_mem hmem
    obtain ⟨j, hj, hreaches⟩ := h.reaches (r.getElem?_list slot ▸ hslot)
    obtain rfl := Option.some.inj (hi.1.symm.trans hreaches.1)
    exact ⟨slot, Registry.writeTargets_eq_some.mpr ⟨e, hslot, hwritable, hj⟩⟩

/-- There is a handle to write back to if an entry is writable. -/
theorem targets_isEmpty : ((r.writeTargets b.handles).filterMap id).isEmpty = true ↔ r.writable = [] := by
  rw [List.isEmpty_iff, List.eq_nil_iff_forall_not_mem, List.eq_nil_iff_forall_not_mem]
  constructor
  · intro hnone e he
    obtain ⟨slot, hslot⟩ := List.getElem?_of_mem (List.mem_filter.mp he).1
    obtain ⟨i, -, hi⟩ := h.reaches (r.getElem?_list slot ▸ hslot)
    exact hnone i (h.mem_targets.mpr ⟨e, he, hi⟩)
  · intro hnone i hi
    obtain ⟨e, he, -⟩ := h.mem_targets.mp hi
    exact hnone e he

/-- The active voxels behind the handle of an entry. -/
theorem active_eq (hnodup : (r.list.map Entry.name).Nodup) {e : Entry} (he : e ∈ r.list)
    {i : Handle} (hi : Reaches b.data e i) : b.data.active i = (start.gridOf e).active := by
  obtain ⟨g, hat, hget⟩ := Table.at?_of_index? hi.1
  have hfield : field b.data e = start.gridOf e := h.field_eq hnodup he
  rw [field, hget, Option.getD_some] at hfield
  have hgrid : b.data.grids.at? i = some (e.name, g) := hat
  rw [active, hgrid, hfield]

/-- The voxels on which a program runs. -/
theorem mem_iterated (hnodup : (r.list.map Entry.name).Nodup) {c : Coord} : c ∈ iterated r b ↔ start.Visits r c := by
  have hgrids (i : Handle) :
      (i ∈ if ((r.writeTargets b.handles).filterMap id).isEmpty then b.handles
        else (r.writeTargets b.handles).filterMap id) ↔
      ∃ e ∈ (if r.writable = [] then r.list else r.writable), Reaches b.data e i := by
    by_cases hnone : r.writable = []
    · rw [if_pos (h.targets_isEmpty.mpr hnone), if_pos hnone, h.mem_handles]
    · rw [if_neg (mt h.targets_isEmpty.mp hnone), if_neg hnone, h.mem_targets]
  have hlist (e : Entry) (he : e ∈ (if r.writable = [] then r.list else r.writable)) : e ∈ r.list := by
    split at he
    · exact he
    · exact (List.mem_filter.mp he).1
  rw [iterated, Grid.mem_map_foldl_insertVoxel, List.map_nil, List.mem_flatMap]
  simp only [List.not_mem_nil, or_false, hgrids]
  constructor
  · rintro ⟨i, ⟨e, he, hi⟩, hc⟩
    exact ⟨e, he, h.active_eq hnodup (hlist e he) hi ▸ hc⟩
  · rintro ⟨e, he, hc⟩
    obtain ⟨slot, hslot⟩ := List.getElem?_of_mem (hlist e he)
    obtain ⟨i, -, hi⟩ := h.reaches (r.getElem?_list slot ▸ hslot)
    exact ⟨i, ⟨e, he, hi⟩, h.active_eq hnodup (hlist e he) hi ▸ hc⟩

end

end Binding.Binds

/-- The voxels on which a program runs are in order, and so none of them is run twice. -/
theorem pairwise_iterated (r : Registry) (b : Binding VolumeSet) :
    (iterated r b).Pairwise fun a c => a.before c = true :=
  Grid.pairwise_foldl_insertVoxel _ _ .nil

/-! ## Runs -/

/-- The state in which a voxel is run: the values of the entries there. -/
def Executable.voxelState (exe : Executable) (data : VolumeSet) (c : Coord) : ElementState :=
  .start (exe.registry.list.map fun e => (data.gridOf e).get c).toArray (some c)

/-- A run over volumes. If a compiled program comes to its end on each voxel that it is to run on, then it is run once
on each of them in the order of their coordinates, and there is one volume that is left, whatever the size of the
chunks, if the host does not stop the run. What the voxels print comes in this order too, unless the run is parallel. -/
theorem Executable.runVolumes_voxelwise {t : Tree} {map : SourceMap} {options : CompileOptions} {exe : Executable}
    (hcompile : t.compile map .volumes options = .ok exe) {data : VolumeSet}
    (hbind : (Binding.ofRegistry exe.registry data).2 = none) {final : Coord → ElementState}
    {calls : Coord → List NativeCall}
    (hruns : ∀ c, data.Visits exe.registry c → exe.program.EndsWith (exe.voxelState data c) ⟨none, final c, calls c⟩) :
    (∃ voxels after, (voxels.Pairwise fun a c => a.before c = true) ∧
      (∀ c, c ∈ voxels ↔ data.Visits exe.registry c) ∧ VolumeSet.RunsTo exe.registry voxels final data after ∧
      ∃ bound, ∀ fuel ≥ bound, ∀ run : ExecuteOptions, run.selection = none →
        (∀ stops ∈ run.interrupt, ∀ n < (chunksOf run.chunkSize voxels).length, stops n = false) →
        (exe.runVolumes data run fuel).data = after ∧
          run.Prints (exe.runVolumes data run fuel).printed (voxels.flatMap fun c => NativeCall.printedBy (calls c)) ∧
          (exe.runVolumes data run fuel).result = .ok
            { processed := voxels.length
              chunks := (chunksOf run.chunkSize voxels).length
              created := (data.missing exe.registry.writable).map Entry.name }) ∧
      (options.library.KeepsTo exe.registry → ∀ c, data.Visits exe.registry c → ∀ i e,
        exe.registry.at? i = some e → (final c).written[i]? = some true → e.writable = true) := by
  have hnames := Tree.names_nodup_of_compile hcompile
  have hbinds := Binding.ofRegistry_binds hnames hbind
  generalize hb : (Binding.ofRegistry exe.registry data).1 = b at hbinds
  have hmem (c : Coord) : c ∈ iterated exe.registry b ↔ data.Visits exe.registry c := hbinds.mem_iterated hnames
  have hgather (c : Coord) : gather b.handles b.data c = exe.voxelState data c := by
    have hread := hbinds.map_value hnames c
    rw [gather, hread]
    rfl
  constructor
  · have hordered := pairwise_iterated exe.registry b
    have hnodup : (iterated exe.registry b).Nodup := by
      refine hordered.imp ?_
      rintro a c hbefore rfl
      exact Coord.before_irrefl a hbefore
    have hfinal (c : Coord) (hc : c ∈ iterated exe.registry b) :
        (final c).values.size = exe.registry.list.length := by
      have hevolves := (hruns c ((hmem c).mp hc)).evolves (S := fun _ => True) fun _ _ _ => trivial
      simpa [voxelState, ElementState.start] using hevolves.values_size
    have hended (c : Coord) (hc : c ∈ iterated exe.registry b) :
        ∃ calls, exe.program.EndsWith (exe.voxelState data c) ⟨none, final c, calls⟩ :=
      ⟨calls c, hruns c ((hmem c).mp hc)⟩
    obtain ⟨bound, hfuel⟩ := Program.exists_fuel hended
    refine ⟨iterated exe.registry b, _, hordered, hmem, hbinds.runsToVoxels hnames hfinal, bound,
      fun fuel hmore run hselection hgoes => ?_⟩
    have hends (c : Coord) (hc : c ∈ iterated exe.registry b) :
        (exe.program.run fuel (gather b.handles b.data c)).ending? = some ⟨none, final c, calls c⟩ := by
      obtain ⟨calls', hend⟩ := hfuel fuel hmore c hc
      rw [hgather, hend, Program.EndsWith.unique ⟨fuel, hend⟩ (hruns c ((hmem c).mp hc))]
    have hchunks : RunsChunks exe.program fuel b.handles (exe.registry.writeTargets b.handles) b.data
        (chunksOf run.chunkSize (iterated exe.registry b)) _ _ :=
      .of_nodup (by rwa [flatten_chunksOf]) (by rwa [flatten_chunksOf])
    rw [flatten_chunksOf] at hchunks
    obtain ⟨polls, printed, hprinted, hrun⟩ := runOn_of_runs hchunks hgoes
    have hbound : Binding.ofRegistry exe.registry data = (b, none) := Prod.ext hb hbind
    have hselect : select (iterated exe.registry b) run.selection = .ok (iterated exe.registry b) := by
      rw [hselection]
      rfl
    rw [runVolumes_eq_runOn hbound hselect, hrun, hbinds.created, hbinds.missing_writable]
    exact ⟨rfl, hprinted, rfl⟩
  · intro hlibrary c hc i e he hwritten
    exact Tree.writable_of_written hcompile hlibrary (hruns c hc) he hwritten

/-- `int@a = 1; if (getcoordx() == 5) { int@b = 2; }`, where the second grid is written at some voxels only. -/
def Tree.marksColumn : Tree where
  id := 0
  slots := #[
    some ⟨.block [3, 12], none⟩,
    some ⟨.field "a" .int32 false false, some 3⟩,
    some ⟨.value (.int32 1), some 3⟩,
    some ⟨.assign 1 2 none, some 0⟩,
    some ⟨.call "getcoordx" [], some 6⟩,
    some ⟨.value (.int32 5), some 6⟩,
    some ⟨.binary .eq 4 5, some 12⟩,
    some ⟨.field "b" .int32 false false, some 9⟩,
    some ⟨.value (.int32 2), some 9⟩,
    some ⟨.assign 7 8 none, some 10⟩,
    some ⟨.block [9], some 12⟩,
    some ⟨.block [], some 12⟩,
    some ⟨.conditional 6 10 11, some 0⟩]
  root := 0

/-- A volume with two active voxels in its first grid, given in the other order, and none in its second one. -/
def VolumeSet.twoVoxels : VolumeSet :=
  ⟨⟨[("a", { ty := .int32, background := .int32 0, voxels := [(⟨0, 0, 0⟩, .int32 0), (⟨5, 0, 0⟩, .int32 0)] }),
    ("b", { ty := .int32, background := .int32 0 })]⟩⟩

/-- Two voxels are run, and one of them is marked in the second grid. -/
theorem Executable.runVolumes_voxelwise_marked :
    ∃ exe, Tree.marksColumn.compile (.empty Tree.marksColumn) .volumes {} = .ok exe ∧
      (Binding.ofRegistry exe.registry VolumeSet.twoVoxels).2 = none ∧
      ∃ (after : VolumeSet) (g : Grid), after.grid? "b" = some g ∧ ⟨5, 0, 0⟩ ∈ g.active ∧ ⟨0, 0, 0⟩ ∉ g.active ∧
        g.get ⟨5, 0, 0⟩ = .int32 2 ∧ ∃ bound, ∀ fuel ≥ bound, ∀ chunkSize,
          (exe.runVolumes VolumeSet.twoVoxels { chunkSize } fuel).data = after := by
  have hfields : (Tree.marksColumn.compile (.empty Tree.marksColumn) .volumes {}).toOption.map (fun exe =>
      (exe.registry.list, (Binding.ofRegistry exe.registry VolumeSet.twoVoxels).2)) =
      some ([⟨"a", .int32, true, 0⟩, ⟨"b", .int32, true, 1⟩], none) := by
    decide +kernel
  have hseen : (Tree.marksColumn.compile (.empty Tree.marksColumn) .volumes {}).toOption.map (fun exe =>
      (Ending.seen? ElementState.slots (exe.program.run 0 (exe.voxelState VolumeSet.twoVoxels ⟨0, 0, 0⟩)).ending?,
        Ending.seen? ElementState.slots (exe.program.run 0 (exe.voxelState VolumeSet.twoVoxels ⟨5, 0, 0⟩)).ending?)) =
      some (some ([true, false], [.int32 1, .int32 0]), some ([true, true], [.int32 1, .int32 2])) := by
    decide +kernel
  obtain ⟨exe, hcompile, hfields⟩ := exists_ok_of_map hfields
  rw [hcompile] at hseen
  obtain ⟨hlist, hbind⟩ := Prod.mk.inj hfields
  obtain ⟨hfirst, hlast⟩ := Prod.mk.inj (Option.some.inj hseen)
  obtain ⟨s, calls, hends, hslots⟩ := Ending.exists_of_seen? hfirst
  obtain ⟨s', calls', hends', hslots'⟩ := Ending.exists_of_seen? hlast
  obtain ⟨hwritten', hread'⟩ := ElementState.read?_of_slots hslots'
  have hwritable : exe.registry.writable = [⟨"a", .int32, true, 0⟩, ⟨"b", .int32, true, 1⟩] := by
    rw [Registry.writable, hlist]
    rfl
  have hold : (VolumeSet.twoVoxels.gridOf ⟨"a", .int32, true, 0⟩).active = [⟨0, 0, 0⟩, ⟨5, 0, 0⟩] := by
    decide
  have hnone : (VolumeSet.twoVoxels.gridOf ⟨"b", .int32, true, 1⟩).active = [] := by
    decide
  have hvisits (c : Coord) : VolumeSet.twoVoxels.Visits exe.registry c ↔ c = ⟨0, 0, 0⟩ ∨ c = ⟨5, 0, 0⟩ := by
    rw [VolumeSet.Visits, hwritable]
    simp [hold, hnone]
  have hruns (c : Coord) (hc : VolumeSet.twoVoxels.Visits exe.registry c) :
      exe.program.EndsWith (exe.voxelState VolumeSet.twoVoxels c)
        ⟨none, if c = ⟨0, 0, 0⟩ then s else s', if c = ⟨0, 0, 0⟩ then calls else calls'⟩ := by
    obtain rfl | rfl := (hvisits c).mp hc
    · exact ⟨0, hends⟩
    · exact ⟨0, hends'⟩
  obtain ⟨voxels, after, -, hvoxels, hafter, bound, hdata⟩ := (runVolumes_voxelwise hcompile hbind hruns).1
  have hentry : exe.registry.at? 1 = some ⟨"b", .int32, true, 1⟩ := by
    rw [← Registry.getElem?_list, hlist]
    rfl
  obtain ⟨g, hg, -, -, hactive, hget⟩ := hafter.grid 1 _ hentry
  have hlast : (⟨5, 0, 0⟩ : Coord) ∈ voxels ∧ s'.written[1]? = some true :=
    ⟨(hvoxels _).mpr ((hvisits _).mpr (.inr rfl)), hwritten' 1⟩
  have hfirst : s.written[1]? = some false := (ElementState.read?_of_slots hslots).1 1
  have hmarked := hget ⟨5, 0, 0⟩
  rw [if_pos ⟨rfl, hlast⟩] at hmarked
  refine ⟨exe, hcompile, hbind, after, g, hg, (hactive _).mpr (.inr ⟨rfl, hlast⟩), ?_, ?_, bound, ?_⟩
  · rw [hactive, hnone]
    simp [hfirst]
  · exact Option.some.inj (hmarked.trans (hread' 1 2 rfl))
  · intro fuel hfuel chunkSize
    exact (hdata fuel hfuel { chunkSize } rfl (by simp)).1

/-- `int@a = 7; int@b; sneak();`, where an inline function of the host writes the slot of `b`. -/
def Tree.sneaks : Tree where
  id := 0
  slots := #[
    some ⟨.block [3, 4, 5], none⟩,
    some ⟨.field "a" .int32 false false, some 3⟩,
    some ⟨.value (.int32 7), some 3⟩,
    some ⟨.assign 1 2 none, some 0⟩,
    some ⟨.field "b" .int32 false false, some 0⟩,
    some ⟨.call "sneak" [], some 0⟩]
  root := 0

/-- The functions of a host, of which one is inline and writes the second slot. -/
def Library.sneaking : Library :=
  Library.add {} (Group.push { name := "sneak" } { params := [], ret := .int32 } (.emitted (Tree.writesSlot 1)))

/-- The program writes the slot of `b` at a voxel where it runs, and the voxel is not active in `b` after the run: what
is written to the slot of a grid that is only read is not put back. -/
theorem Executable.runVolumes_voxelwise_not_read_only :
    ∃ exe, Tree.sneaks.compile (.empty Tree.sneaks) .volumes { library := .sneaking } = .ok exe ∧
      exe.registry.list = [⟨"a", .int32, true, 0⟩, ⟨"b", .int32, false, 1⟩] ∧
      (Binding.ofRegistry exe.registry VolumeSet.twoVoxels).2 = none ∧
      VolumeSet.twoVoxels.Visits exe.registry ⟨5, 0, 0⟩ ∧
      (∃ s calls, exe.program.EndsWith (exe.voxelState VolumeSet.twoVoxels ⟨5, 0, 0⟩) ⟨none, s, calls⟩ ∧
        s.written[1]? = some true) ∧
      (exe.runVolumes VolumeSet.twoVoxels {} 0).result = .ok { processed := 2, chunks := 1, created := [] } ∧
      ∃ g, (exe.runVolumes VolumeSet.twoVoxels {} 0).data.grid? "b" = some g ∧ ⟨5, 0, 0⟩ ∉ g.active := by
  have hfields : (Tree.sneaks.compile (.empty Tree.sneaks) .volumes { library := .sneaking }).toOption.map (fun exe =>
      (exe.registry.list, (Binding.ofRegistry exe.registry VolumeSet.twoVoxels).2)) =
      some ([⟨"a", .int32, true, 0⟩, ⟨"b", .int32, false, 1⟩], none) := by
    decide +kernel
  have hseen : (Tree.sneaks.compile (.empty Tree.sneaks) .volumes { library := .sneaking }).toOption.map (fun exe =>
      Ending.seen? ElementState.slots (exe.program.run 0 (exe.voxelState VolumeSet.twoVoxels ⟨5, 0, 0⟩)).ending?) =
      some (some ([true, true], [.int32 7, .int32 1])) := by
    decide +kernel
  have hafter : (Tree.sneaks.compile (.empty Tree.sneaks) .volumes { library := .sneaking }).toOption.map (fun exe =>
      ((exe.runVolumes VolumeSet.twoVoxels {} 0).result,
        ((exe.runVolumes VolumeSet.twoVoxels {} 0).data.grid? "b").map Grid.active)) =
      some (.ok { processed := 2, chunks := 1, created := [] }, some []) := by
    decide +kernel
  obtain ⟨exe, hcompile, hfields⟩ := exists_ok_of_map hfields
  rw [hcompile] at hseen hafter
  obtain ⟨hlist, hbind⟩ := Prod.mk.inj hfields
  obtain ⟨s, calls, hends, hslots⟩ := Ending.exists_of_seen? (Option.some.inj hseen)
  obtain ⟨hresult, hgrid⟩ := Prod.mk.inj (Option.some.inj hafter)
  obtain ⟨g, hg, hactive⟩ := Option.map_eq_some_iff.mp hgrid
  refine ⟨exe, hcompile, hlist, hbind, ?_, ⟨s, calls, ⟨0, hends⟩, ?_⟩, hresult, g, hg, by simp [hactive]⟩
  · have hwritable : exe.registry.writable = [⟨"a", .int32, true, 0⟩] := by
      rw [Registry.writable, hlist]
      rfl
    rw [VolumeSet.Visits, hwritable]
    exact ⟨_, List.mem_singleton_self _, by decide⟩
  · exact (ElementState.read?_of_slots hslots).1 1

end Elementwise
