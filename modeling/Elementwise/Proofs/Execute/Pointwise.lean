import Elementwise.Proofs.Compile.Slots
import Elementwise.Proofs.DataSet.Points
import Elementwise.Proofs.Execute.PutBack

/-!
# Running over points is a map

A compiled program that comes to its end on each chosen point changes every point by its own run, from the
values that the point had before. Nothing else is changed, and neither the size of the chunks nor the order
of the choice makes a difference.
-/

namespace Elementwise

/-! ## Putting back what points wrote -/

namespace PointSet

variable {targets : List (Option Handle)} {d : PointSet} {final : Nat → ElementState} {points ran : List Nat}

/-- The data set once points were run, each of which ended in a given state. -/
def afterRuns (d : PointSet) (targets : List (Option Handle)) (final : Nat → ElementState) (points : List Nat) :
    PointSet := scatterAll targets final d points

theorem size_afterRuns : (d.afterRuns targets final points).size = d.size :=
  scatterAll_induction (P := fun d' : PointSet => d'.size = d.size) (fun _ _ _ _ h => h) targets final rfl points

/-- The column of an attribute once points were run. -/
theorem column?_afterRuns {name : String} {i : Handle} (hi : d.columns.index? name = some i) :
    (d.afterRuns targets final points).column? name =
      (d.column? name).map (FieldData.putAll points fun p => putTo? targets (final p).changes i) :=
  get?_scatterAll (D := PointSet) final points hi

/-- Putting back keeps how many values there are. -/
theorem Complete.afterRuns (h : d.Complete) : (d.afterRuns targets final points).Complete := by
  intro name c hc
  cases hi : d.columns.index? name with
  | none =>
    have hnames : (d.afterRuns targets final points).columns.names = d.columns.names :=
      names_scatterAll targets final d points
    rw [Table.index?_eq_none_iff, ← hnames] at hi
    exact absurd (Table.mem_names_iff.mpr ⟨c, hc⟩) hi
  | some i =>
    rw [column?_afterRuns hi] at hc
    obtain ⟨c', hc', rfl⟩ := Option.map_eq_some_iff.mp hc
    rw [(Column.putAll_eq points _ c').2.1, size_afterRuns]
    exact h name c' hc'

/-- Only which points were run matters, neither their order nor how often each of them was. -/
theorem afterRuns_congr (h : ∀ q, q ∈ ran ↔ q ∈ points) :
    d.afterRuns targets final ran = d.afterRuns targets final points := by
  have hcolumns (i : Handle) : (d.afterRuns targets final ran).columns.at? i =
      (d.afterRuns targets final points).columns.at? i := by
    refine (at?_scatterAll targets final d ran i).trans ((?_ : _ = _).trans (at?_scatterAll targets final d points i).symm)
    congr 1
    funext entry
    obtain ⟨hty, -, hvalues⟩ := Column.putAll_eq ran (fun p => putTo? targets (final p).changes i) entry.2
    obtain ⟨hty', -, hvalues'⟩ := Column.putAll_eq points (fun p => putTo? targets (final p).changes i) entry.2
    refine congrArg (Prod.mk entry.1) (Column.ext (hty.trans hty'.symm) (Array.ext_getElem? fun p => ?_))
    rw [hvalues, hvalues', if_congr (h p) rfl rfl]
  have hsize : (d.afterRuns targets final ran).size = (d.afterRuns targets final points).size :=
    size_afterRuns.trans size_afterRuns.symm
  generalize d.afterRuns targets final ran = after at hcolumns hsize ⊢
  generalize d.afterRuns targets final points = after' at hcolumns hsize ⊢
  obtain ⟨size, ⟨entries⟩⟩ := after
  obtain ⟨size', ⟨entries'⟩⟩ := after'
  obtain rfl : size = size' := hsize
  obtain rfl : entries = entries' := List.ext_getElem? hcolumns
  rfl

end PointSet

/-! ## The data set after a run -/

/-- What a run over points makes of a data set if each point that is run ends in a given state. The entries that
were missing and are written are created at the end; an entry that is written has at a point that was run what the
run wrote into its slot, if it did; every other value is what it was, or zero. -/
structure PointSet.RunsTo (r : Registry) (points : List Nat) (final : Nat → ElementState)
    (before after : PointSet) : Prop where
  size : after.size = before.size
  names : after.columns.names = before.columns.names ++ (before.missing r.writable).map Entry.name
  complete : after.Complete
  kept : ∀ name, (∀ e ∈ r.writable, e.name ≠ name) → after.column? name = before.column? name
  ty : ∀ e ∈ r.list, ∃ c, after.column? e.name = some c ∧ c.ty = e.ty
  value : ∀ i e, r.at? i = some e → ∀ p < before.size, after.value? e.name p =
    if e.writable = true ∧ p ∈ points ∧ (final p).written[i]? = some true then (final p).read? i
    else some (before.initial e p)

namespace Binding.Binds

open PointSet

variable {r : Registry} {start : PointSet} {b : Binding PointSet} {points : List Nat} {final : Nat → ElementState}

section

variable (h : b.Binds start r.list) (hstart : start.Complete) (hnodup : (r.list.map Entry.name).Nodup)

include h hstart hnodup

/-- What is read through the handles is what the data set had, or zero. -/
theorem map_read {p : Nat} (hp : p < start.size) : b.handles.map (b.data.read · p) = r.list.map (start.initial · p) :=
  (h.map_value hnodup p).trans (List.map_congr_left fun e _ => value_field hstart e hp)

/-- The value of a bound entry is the one that the data set had, or zero. -/
theorem value? {slot : Nat} {e : Entry} (he : r.at? slot = some e) {p : Nat} (hp : p < start.size) :
    b.data.value? e.name p = some (start.initial e p) := by
  obtain ⟨i, -, -, c, hc, -⟩ := h.reaches he
  have hfield : HasFields.field start e = c := by
    rw [← h.field_eq hnodup (List.mem_of_getElem? (r.getElem?_list slot ▸ he)), HasFields.field, hc]
    rfl
  have hcolumn : b.data.column? e.name = some c := hc
  have hlt : p < c.values.size := by
    have hcomplete : b.data.Complete := h.data ▸ hstart.addZeros _
    have hsize : b.data.size = start.size := by rw [h.data]; rfl
    rwa [hcomplete e.name c hc, hsize]
  rw [← value_field hstart e hp, hfield, PointSet.value?, hcolumn]
  simp [FieldData.value, hlt]

/-- An entry has at a point what the run of the point wrote into its slot, or what it had. -/
theorem value?_afterRuns (hfinal : ∀ p ∈ points, (final p).values.size = r.list.length) {slot : Nat} {e : Entry}
    (he : r.at? slot = some e) {p : Nat} (hp : p < start.size) :
    (b.data.afterRuns (r.writeTargets b.handles) final points).value? e.name p =
      if e.writable = true ∧ p ∈ points ∧ (final p).written[slot]? = some true then (final p).read? slot
      else some (start.initial e p) := by
  obtain ⟨i, -, hi⟩ := h.reaches he
  obtain ⟨c, hc, -⟩ := hi.2
  have hcolumn : b.data.column? e.name = some c := hc
  have hold := h.value? hstart hnodup he hp
  rw [PointSet.value?, hcolumn, Option.bind_some] at hold
  rw [PointSet.value?, column?_afterRuns hi.1, hcolumn, Option.map_some, Option.bind_some,
    (Column.putAll_eq points _ c).2.2, hold, h.putTo?_eq hnodup he hi hfinal]
  split
  · next hwrote =>
    obtain ⟨v, hv⟩ := Registry.exists_read? he (hfinal p hwrote.2.1)
    simp [hv]
  · rfl

/-- The bound data set, with each point changed by its run, is what a run over points makes. -/
theorem runsTo (hfinal : ∀ p ∈ points, (final p).values.size = r.list.length) :
    RunsTo r points final start (b.data.afterRuns (r.writeTargets b.handles) final points) where
  size := by rw [size_afterRuns, h.data]; rfl
  names := by
    refine (names_scatterAll _ final b.data points).trans ?_
    rw [h.data, h.missing_writable]
    exact HasFields.names_add (D := PointSet)
  complete := by
    rw [h.data]
    exact (hstart.addZeros _).afterRuns
  kept name hname := h.get?_scatterAll_of_unwritten hname points
  ty e he := by
    obtain ⟨slot, hslot⟩ := List.getElem?_of_mem he
    obtain ⟨i, -, hi, c, hc, hty⟩ := h.reaches (r.getElem?_list slot ▸ hslot)
    have hcolumn : b.data.column? e.name = some c := hc
    rw [column?_afterRuns hi, hcolumn]
    exact ⟨_, rfl, (Column.putAll_eq points _ c).1.trans hty⟩
  value slot e he p hp := h.value?_afterRuns hstart hnodup hfinal he hp

end

end Binding.Binds

/-! ## Runs -/

/-- The state in which a point is run: the values of the entries there. -/
def Executable.pointState (exe : Executable) (data : PointSet) (point : Nat) : ElementState :=
  .start (exe.registry.list.map (data.initial · point)).toArray none

/-- Running a bound program over points that all come to their ends changes each by its run. -/
theorem Executable.runPoints_of_ends {exe : Executable} {data : PointSet} {b : Binding PointSet}
    (hbind : Binding.ofRegistry exe.registry data = (b, none)) {final : Nat → ElementState} {fuel : Nat}
    {options : ExecuteOptions} (hnodup : (options.chosen data.size).Nodup)
    (hrange : ∀ p ∈ options.chosen data.size, p < data.size)
    (hruns : ∀ p ∈ options.chosen data.size, ∃ calls,
      (exe.program.run fuel (gather b.handles b.data p)).ending? = some ⟨none, final p, calls⟩)
    (hgoes : ∀ stops ∈ options.interrupt, ∀ n < (chunksOf options.chunkSize (options.chosen data.size)).length,
      stops n = false) :
    (exe.runPoints data options fuel).data =
        b.data.afterRuns (exe.registry.writeTargets b.handles) final (options.chosen data.size) ∧
      (exe.runPoints data options fuel).result = .ok
        { processed := (options.chosen data.size).length
          chunks := (chunksOf options.chunkSize (options.chosen data.size)).length
          created := b.created } := by
  choose! calls hends using hruns
  have hruns : RunsChunks exe.program fuel b.handles (exe.registry.writeTargets b.handles) b.data
      (chunksOf options.chunkSize (options.chosen data.size)) _ _ :=
    .of_nodup (by rwa [flatten_chunksOf]) (by rwa [flatten_chunksOf])
  rw [flatten_chunksOf] at hruns
  obtain ⟨polls, printed, -, hrun⟩ := runOn_of_runs hruns hgoes
  have hselect : select (List.range data.size) options.selection = .ok (options.chosen data.size) :=
    select_range hrange
  rw [runPoints_eq_runOn hselect hbind, hrun]
  exact ⟨rfl, rfl⟩

/-- A run over points is a map. If a compiled program comes to its end on each of some points, in any state, then
there is one data set that every run over these points leaves, whatever the size of its chunks and whatever the
order in which the points are chosen, if the host does not stop it. -/
theorem Executable.runPoints_pointwise {t : Tree} {map : SourceMap} {options : CompileOptions} {exe : Executable}
    (hcompile : t.compile map .points options = .ok exe) {data : PointSet} (hdata : data.Complete)
    (hbind : (Binding.ofRegistry exe.registry data).2 = none) {points : List Nat} (hnodup : points.Nodup)
    (hrange : ∀ p ∈ points, p < data.size) {final : Nat → ElementState}
    (hruns : ∀ p ∈ points, ∃ calls, exe.program.EndsWith (exe.pointState data p) ⟨none, final p, calls⟩) :
    (∃ after, PointSet.RunsTo exe.registry points final data after ∧
      ∃ bound, ∀ fuel ≥ bound, ∀ run : ExecuteOptions, (run.chosen data.size).Perm points →
        (∀ stops ∈ run.interrupt, ∀ n < (chunksOf run.chunkSize (run.chosen data.size)).length, stops n = false) →
        (exe.runPoints data run fuel).data = after ∧
          (exe.runPoints data run fuel).result = .ok
            { processed := points.length
              chunks := (chunksOf run.chunkSize (run.chosen data.size)).length
              created := (data.missing exe.registry.writable).map Entry.name }) ∧
      (options.library.KeepsTo exe.registry → ∀ p ∈ points, ∀ i e, exe.registry.at? i = some e →
        (final p).written[i]? = some true → e.writable = true) := by
  obtain ⟨uses, hrecords⟩ := Tree.records_of_compile hcompile
  have hnames : (exe.registry.list.map Entry.name).Nodup := hrecords.list_names ▸ hrecords.nodup
  have hbinds := Binding.ofRegistry_binds hnames hbind
  generalize hb : (Binding.ofRegistry exe.registry data).1 = b at hbinds
  constructor
  · have hgather (p : Nat) (hp : p ∈ points) : gather b.handles b.data p = exe.pointState data p := by
      have hread := hbinds.map_read hdata hnames (hrange p hp)
      simp only [gather, DataSet.read, hread, DataSet.coord, pointState]
    have hfinal (p : Nat) (hp : p ∈ points) : (final p).values.size = exe.registry.list.length := by
      obtain ⟨calls, hends⟩ := hruns p hp
      have hevolves := hends.evolves (S := fun _ => True) fun _ _ _ => trivial
      simpa [pointState, ElementState.start] using hevolves.values_size
    obtain ⟨bound, hfuel⟩ := Program.exists_fuel hruns
    refine ⟨_, hbinds.runsTo hdata hnames hfinal, bound, fun fuel hmore run hperm hgoes => ?_⟩
    obtain ⟨hafter, hresult⟩ := runPoints_of_ends (Prod.ext hb hbind) (hperm.nodup_iff.mpr hnodup)
      (fun p hp => hrange p (hperm.mem_iff.mp hp))
      (fun p hp => by rw [hgather p (hperm.mem_iff.mp hp)]; exact hfuel fuel hmore p (hperm.mem_iff.mp hp)) hgoes
    rw [hafter, hresult, hperm.length_eq, hbinds.created, hbinds.missing_writable]
    exact ⟨PointSet.afterRuns_congr fun q => hperm.mem_iff, rfl⟩
  · intro hlibrary p hp i e he hwritten
    obtain ⟨calls, hends⟩ := hruns p hp
    exact Tree.writable_of_written hcompile hlibrary hends he hwritten

/-- `int@n = int@b;`, where one field is written and the other one is read. -/
def Tree.copied : Tree where
  id := 0
  slots := #[
    some ⟨.block [3], none⟩,
    some ⟨.field "n" .int32 false false, some 3⟩,
    some ⟨.field "b" .int32 false false, some 3⟩,
    some ⟨.assign 1 2 none, some 0⟩]
  root := 0

/-- Three points that lack the field that is written. -/
def PointSet.threePoints : PointSet :=
  ({ size := 3 } : PointSet).setValues "b" .int32 [.int32 4, .int32 5, .int32 6]

/-- Of three points the last and the first are run, in both orders and in chunks of any size: the field that was
missing is a copy there, and zero in between. -/
theorem Executable.runPoints_pointwise_copied :
    ∃ exe, Tree.copied.compile (.empty Tree.copied) .points {} = .ok exe ∧
      (Binding.ofRegistry exe.registry PointSet.threePoints).2 = none ∧
      ∃ after : PointSet, after.value? "n" 0 = some (.int32 4) ∧ after.value? "n" 1 = some (.int32 0) ∧
        after.value? "n" 2 = some (.int32 6) ∧ ∃ bound, ∀ fuel ≥ bound, ∀ chunkSize,
          (exe.runPoints PointSet.threePoints { selection := some [2, 0], chunkSize } fuel).data = after ∧
          (exe.runPoints PointSet.threePoints { selection := some [0, 2], chunkSize } fuel).data = after := by
  have hfields : (Tree.copied.compile (.empty Tree.copied) .points {}).toOption.map (fun exe =>
      (exe.registry.list, (Binding.ofRegistry exe.registry PointSet.threePoints).2)) =
      some ([⟨"n", .int32, true, 0⟩, ⟨"b", .int32, false, 1⟩], none) := by
    decide +kernel
  have hseen : (Tree.copied.compile (.empty Tree.copied) .points {}).toOption.map (fun exe =>
      (Ending.seen? ElementState.slots (exe.program.run 0 (exe.pointState PointSet.threePoints 0)).ending?,
        Ending.seen? ElementState.slots (exe.program.run 0 (exe.pointState PointSet.threePoints 2)).ending?)) =
      some (some ([true, false], [.int32 4, .int32 4]), some ([true, false], [.int32 6, .int32 6])) := by
    decide +kernel
  obtain ⟨exe, hcompile, hfields⟩ := exists_ok_of_map hfields
  rw [hcompile] at hseen
  obtain ⟨hlist, hbind⟩ := Prod.mk.inj hfields
  obtain ⟨hfirst, hlast⟩ := Prod.mk.inj (Option.some.inj hseen)
  obtain ⟨s, calls, hends, hslots⟩ := Ending.exists_of_seen? hfirst
  obtain ⟨s', calls', hends', hslots'⟩ := Ending.exists_of_seen? hlast
  obtain ⟨hwritten, hread⟩ := ElementState.read?_of_slots hslots
  obtain ⟨hwritten', hread'⟩ := ElementState.read?_of_slots hslots'
  let final (p : Nat) : ElementState := if p = 0 then s else s'
  have hpoints : [2, 0].Nodup := by decide
  have hruns : ∀ p ∈ [2, 0], ∃ calls,
      exe.program.EndsWith (exe.pointState PointSet.threePoints p) ⟨none, final p, calls⟩ :=
    List.forall_mem_cons.mpr ⟨⟨calls', 0, hends'⟩, List.forall_mem_singleton.mpr ⟨calls, 0, hends⟩⟩
  obtain ⟨⟨after, hafter, bound, hall⟩, -⟩ := runPoints_pointwise hcompile
    ((PointSet.complete_new 3).setValues "b" .int32 _) hbind hpoints (by decide) hruns
  have hslot : exe.registry.at? 0 = some ⟨"n", .int32, true, 0⟩ := by rw [← Registry.getElem?_list, hlist]; rfl
  have hvalue := hafter.value 0 _ hslot
  refine ⟨exe, hcompile, hbind, after, ?_, ?_, ?_, bound, fun fuel hfuel chunkSize => ⟨?_, ?_⟩⟩
  · rw [hvalue 0 (by decide), if_pos ⟨rfl, by decide, hwritten 0⟩]
    exact hread 0 4 rfl
  · rw [hvalue 1 (by decide), if_neg (by simp)]
    rfl
  · rw [hvalue 2 (by decide), if_pos ⟨rfl, by decide, hwritten' 0⟩]
    exact hread' 0 6 rfl
  · exact (hall fuel hfuel { selection := some [2, 0], chunkSize } (.refl _) (by simp)).1
  · exact (hall fuel hfuel { selection := some [0, 2], chunkSize } (.swap _ _ _) (by simp)).1

end Elementwise
