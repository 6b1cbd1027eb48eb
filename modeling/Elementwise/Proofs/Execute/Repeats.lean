import Elementwise.Proofs.Execute.Pointwise
import Mathlib.Data.List.Dedup

/-!
# Points that are chosen several times

All points of a chunk are read before any of them is put back. So a point that is chosen several times sees its
earlier turns if they were in earlier chunks, and does not see those of its own chunk, which all start from the same
values and end the same: together they count as one turn. Where no chunk has a point twice, a run is the same as one
turn after another.
-/

namespace Elementwise

/-! ## One element after another -/

section

variable {D E : Type} [DataSet D E]

/-- Run a program on elements one after another: each is read from what those before it have left, and what it wrote
is put back before the next. This is the data set that is left, if every element comes to its end. -/
def Program.runInTurn (program : Program) (fuel : Nat) (handles : List Handle) (targets : List (Option Handle)) :
    D → List E → Option D
  | d, [] => some d
  | d, e :: rest =>
    (program.run fuel (gather handles d e)).ending?.bind fun ending =>
      if ending.fault = none then
        program.runInTurn fuel handles targets (scatter targets d e ending.element) rest
      else none

variable {program : Program} {fuel : Nat} {handles : List Handle} {targets : List (Option Handle)} {d after : D}
  {e : E} {chunk rest : List E}

/-- The first element comes to its end, and the others have their turns after it. -/
theorem Program.runInTurn_cons (h : program.runInTurn fuel handles targets d (e :: rest) = some after) :
    ∃ final calls, (program.run fuel (gather handles d e)).ending? = some ⟨none, final, calls⟩ ∧
      program.runInTurn fuel handles targets (scatter targets d e final) rest = some after := by
  obtain ⟨⟨fault, final, calls⟩, hending, hrest⟩ := Option.bind_eq_some_iff.mp h
  split at hrest
  · next hfault => exact ⟨final, calls, hfault ▸ hending, hrest⟩
  · cases hrest

section

variable {F : Type} [FieldData F E] [fields : HasFields D E F] [DecidableEq E]

include fields

/-- Different elements that have their turns one after another could all have been read at first, as none of them
sees what the others write. -/
theorem Program.runInTurn_append (hnodup : chunk.Nodup)
    (h : program.runInTurn fuel handles targets d (chunk ++ rest) = some after) :
    ∃ (final : E → ElementState) (calls : E → List NativeCall),
      (∀ e ∈ chunk, (program.run fuel (gather handles d e)).ending? = some ⟨none, final e, calls e⟩) ∧
      program.runInTurn fuel handles targets (scatterAll targets final d chunk) rest = some after := by
  induction chunk generalizing d with
  | nil => exact ⟨fun _ => .start #[] none, fun _ => [], by simp, h⟩
  | cons first chunk ih =>
    obtain ⟨hfirst, hchunk⟩ := List.nodup_cons.mp hnodup
    obtain ⟨state, called, hend, hothers⟩ := runInTurn_cons h
    obtain ⟨final, calls, hends, hafter⟩ := ih hchunk hothers
    have hne (e : E) (he : e ∈ chunk) : e ≠ first := fun heq => hfirst (heq ▸ he)
    -- the others differ from the first, so they are read as if it had not had its turn
    refine ⟨Function.update final first state, Function.update calls first called,
      List.forall_mem_cons.mpr ⟨?_, fun e he => ?_⟩, ?_⟩
    · simpa using hend
    · rw [Function.update_of_ne (hne e he), Function.update_of_ne (hne e he), ← hends e he,
        gather_scatter_of_ne (hne e he)]
    · have hsame : scatterAll targets (Function.update final first state) d (first :: chunk) =
          scatterAll targets final (scatter targets d first state) chunk := by
        rw [scatterAll, List.foldl_cons, Function.update_self]
        exact List.foldl_ext _ _ _ fun d e he => by rw [Function.update_of_ne (hne e he)]
      rw [hsame]
      exact hafter

end

end

/-! ## Chunks with repetitions -/

/-- Points in chunks are run as if those of each chunk had their turns, every one of them once. -/
theorem RunsChunks.of_runInTurn {program : Program} {fuel : Nat} {handles : List Handle}
    {targets : List (Option Handle)} {d after : PointSet} {chunks : List (List Nat)}
    (h : program.runInTurn fuel handles targets d (chunks.flatMap List.dedup) = some after) :
    ∃ printed, RunsChunks program fuel handles targets d chunks printed after := by
  induction chunks generalizing d with
  | nil =>
    obtain rfl : d = after := Option.some.inj h
    exact ⟨[], .nil d⟩
  | cons chunk rest ih =>
    obtain ⟨final, calls, hends, hrest⟩ := Program.runInTurn_append chunk.nodup_dedup h
    -- the turns that a point has in a chunk end the same, so it does not matter how many are put back
    have hchunk : scatterAll targets final d chunk.dedup = scatterAll targets final d chunk :=
      PointSet.afterRuns_congr fun q => List.mem_dedup
    rw [hchunk] at hrest
    obtain ⟨printed, hruns⟩ := ih hrest
    exact ⟨_, .cons final calls (fun e he => hends e (List.mem_dedup.mpr he)) hruns⟩

/-- A chunk of one element has none twice. -/
theorem nodup_of_mem_chunksOf {E : Type} {size : Nat} (hsize : size ≤ 1) {elements chunk : List E}
    (h : chunk ∈ chunksOf size elements) : chunk.Nodup := by
  induction elements using chunksOf.induct size with
  | case1 => simp [chunksOf] at h
  | case2 e rest ih =>
    rw [chunksOf, List.mem_cons] at h
    rcases h with rfl | hrest
    · simp [show size - 1 = 0 by omega]
    · exact ih hrest

/-- If no chunk has an element twice, nothing is left out. -/
theorem flatMap_dedup_chunksOf {E : Type} [DecidableEq E] {size : Nat} {elements : List E}
    (h : ∀ chunk ∈ chunksOf size elements, chunk.Nodup) : (chunksOf size elements).flatMap List.dedup = elements :=
  calc (chunksOf size elements).flatMap List.dedup
    _ = (chunksOf size elements).flatMap id := List.flatMap_congr fun chunk hchunk => (h chunk hchunk).dedup
    _ = (chunksOf size elements).flatten := List.flatMap_id
    _ = elements := flatten_chunksOf size elements

namespace Executable

/-- The data set once it was bound and points have had their turns, one after another. -/
def inTurn (exe : Executable) (data : PointSet) (fuel : Nat) (points : List Nat) : Option PointSet :=
  let b := (Binding.ofRegistry exe.registry data).1
  exe.program.runInTurn fuel b.handles (exe.registry.writeTargets b.handles) b.data points

/-- What every run over chosen points in chunks of a size leaves, if it has so much fuel and the host does not
stop it. -/
def Leaves (exe : Executable) (data : PointSet) (points : List Nat) (size fuel : Nat) (after : PointSet) : Prop :=
  ∀ more ≥ fuel, ∀ run : ExecuteOptions, run.selection = some points → run.chunkSize = size →
    (∀ stops ∈ run.interrupt, ∀ n < (chunksOf size points).length, stops n = false) →
    (exe.runPoints data run more).data = after ∧
      ∃ report, (exe.runPoints data run more).result = .ok report ∧ report.processed = points.length

variable {exe : Executable} {data : PointSet}

/-- A run over points leaves what their chunks make of the bound data set. -/
theorem leaves_of_runsChunks {b : Binding PointSet} (hbind : Binding.ofRegistry exe.registry data = (b, none))
    {points : List Nat} (hrange : ∀ p ∈ points, p < data.size) {size fuel : Nat} {printed : List String}
    {after : PointSet}
    (h : RunsChunks exe.program fuel b.handles (exe.registry.writeTargets b.handles) b.data (chunksOf size points)
      printed after) : exe.Leaves data points size fuel after := by
  rintro more hmore run hselection rfl hgoes
  obtain ⟨polls, shown, -, hrun⟩ := runOn_of_runs (h.mono hmore) hgoes
  have hselect : select (List.range data.size) (some points) = .ok points := select_range hrange
  rw [runPoints_eq_runOn (hselection ▸ hselect) hbind, hrun]
  exact ⟨rfl, _, rfl, rfl⟩

/-- Points that are chosen several times. A run over them leaves what they make of the data set one after another,
where those that a chunk has several times have one turn in it. So if the chunks have no point twice, as those of one
point do not, it leaves what the points as they are chosen make of the data set one after another. -/
theorem runPoints_repeated (hbind : (Binding.ofRegistry exe.registry data).2 = none) {points : List Nat}
    (hrange : ∀ p ∈ points, p < data.size) (size fuel : Nat) :
    (∀ after, exe.inTurn data fuel ((chunksOf size points).flatMap List.dedup) = some after →
      exe.Leaves data points size fuel after) ∧
    ((size ≤ 1 ∨ ∀ chunk ∈ chunksOf size points, chunk.Nodup) →
      ∀ after, exe.inTurn data fuel points = some after → exe.Leaves data points size fuel after) := by
  have hleaves (after : PointSet) (h : exe.inTurn data fuel ((chunksOf size points).flatMap List.dedup) = some after) :
      exe.Leaves data points size fuel after := by
    obtain ⟨printed, hruns⟩ := RunsChunks.of_runInTurn h
    exact leaves_of_runsChunks (Prod.ext rfl hbind) hrange hruns
  refine ⟨hleaves, fun hchunks after h => hleaves after ?_⟩
  have hnodup : ∀ chunk ∈ chunksOf size points, chunk.Nodup := by
    rcases hchunks with hsize | hnodup
    · exact fun chunk hchunk => nodup_of_mem_chunksOf hsize hchunk
    · exact hnodup
  rw [flatMap_dedup_chunksOf hnodup]
  exact h

end Executable

/-- `int@a = int@a + 1;`, which counts the turns of a point. -/
def Tree.counts : Tree where
  id := 0
  slots := #[
    some ⟨.block [5], none⟩,
    some ⟨.field "a" .int32 false false, some 5⟩,
    some ⟨.field "a" .int32 false false, some 4⟩,
    some ⟨.value (.int32 1), some 4⟩,
    some ⟨.binary .add 2 3, some 5⟩,
    some ⟨.assign 1 4 none, some 0⟩]
  root := 0

/-- The numbers of a field at the points of a data set. -/
def PointSet.numbers (d : PointSet) (name : String) : List (Option Scalar) :=
  (List.range d.size).map fun p => (d.value? name p).map Value.number

namespace Executable

/-- Turns in different chunks are all counted, and those in one chunk are counted once. -/
theorem runPoints_repeated_counted :
    ∃ exe, Tree.counts.compile (.empty Tree.counts) .points {} = .ok exe ∧
      (Binding.ofRegistry exe.registry ({ size := 2 } : PointSet)).2 = none ∧
      ∃ after, exe.inTurn { size := 2 } 0 [0, 1, 0] = some after ∧
        after.numbers "a" = [some (.int32 2), some (.int32 1)] ∧
        exe.Leaves { size := 2 } [0, 1, 0] 2 0 after ∧ exe.Leaves { size := 2 } [0, 1, 0, 0] 2 0 after := by
  have hseen : (Tree.counts.compile (.empty Tree.counts) .points {}).toOption.map (fun exe =>
      ((Binding.ofRegistry exe.registry ({ size := 2 } : PointSet)).2,
        (exe.inTurn { size := 2 } 0 [0, 1, 0]).map (PointSet.numbers · "a"))) =
      some (none, some [some (.int32 2), some (.int32 1)]) := by
    decide +kernel
  obtain ⟨exe, hcompile, hseen⟩ := exists_ok_of_map hseen
  obtain ⟨hbind, hturns⟩ := Prod.mk.inj hseen
  obtain ⟨after, hafter, hnumbers⟩ := Option.map_eq_some_iff.mp hturns
  refine ⟨exe, hcompile, hbind, after, hafter, hnumbers, ?_, ?_⟩
  · refine (runPoints_repeated hbind (by decide) 2 0).2 (.inr ?_) after hafter
    simp [chunksOf]
  · refine (runPoints_repeated hbind (by decide) 2 0).1 after ?_
    have hturns : (chunksOf 2 [0, 1, 0, 0]).flatMap List.dedup = [0, 1, 0] := by
      simp [chunksOf]
    rw [hturns]
    exact hafter

/-- A point that is chosen twice and has both turns in one chunk is counted once, and not as often as if it had one
turn after the other. -/
theorem runPoints_repeated_not_in_turn :
    ∃ exe, Tree.counts.compile (.empty Tree.counts) .points {} = .ok exe ∧
      (Binding.ofRegistry exe.registry ({ size := 1 } : PointSet)).2 = none ∧
      (exe.inTurn { size := 1 } 0 [0, 0]).map (PointSet.numbers · "a") = some [some (.int32 2)] ∧
      (exe.runPoints { size := 1 } { selection := some [0, 0], chunkSize := 1 } 0).data.numbers "a" =
        [some (.int32 2)] ∧
      (exe.runPoints { size := 1 } { selection := some [0, 0], chunkSize := 2 } 0).data.numbers "a" =
        [some (.int32 1)] := by
  have hseen : (Tree.counts.compile (.empty Tree.counts) .points {}).toOption.map (fun exe =>
      ((Binding.ofRegistry exe.registry ({ size := 1 } : PointSet)).2,
        (exe.inTurn { size := 1 } 0 [0, 0]).map (PointSet.numbers · "a"))) =
      some (none, some [some (.int32 2)]) := by
    decide +kernel
  have hruns : (Tree.counts.compile (.empty Tree.counts) .points {}).toOption.map (fun exe =>
      ((exe.runPoints { size := 1 } { selection := some [0, 0], chunkSize := 1 } 0).data.numbers "a",
        (exe.runPoints { size := 1 } { selection := some [0, 0], chunkSize := 2 } 0).data.numbers "a")) =
      some ([some (.int32 2)], [some (.int32 1)]) := by
    decide +kernel
  obtain ⟨exe, hcompile, hseen⟩ := exists_ok_of_map hseen
  rw [hcompile] at hruns
  obtain ⟨hbind, hturns⟩ := Prod.mk.inj hseen
  obtain ⟨hone, htwo⟩ := Prod.mk.inj (Option.some.inj hruns)
  exact ⟨exe, hcompile, hbind, hturns, hone, htwo⟩

end Executable

end Elementwise
