import Elementwise.Proofs.Execute.Repeats
import Elementwise.Proofs.Execute.Voxelwise

/-!
# Runs that the host stops

The host is asked before each chunk whether to stop. A run that it stops has done what a run on the first of the chosen
elements would do that the host does not stop: those of the chunks before the stop.
-/

namespace Elementwise

/-- An execution over so many elements that the host stopped, beside the executions that there are with other options.
It was stopped between two chunks, the host was asked once for each chunk before and once more, and an execution on
the elements before the stop leaves and prints the same, if the host does not stop it; a parallel one may print it in
another order. -/
structure ExecuteOptions.StopsAfter {D : Type} (options : ExecuteOptions) (size completed total : Nat)
    (stopped : Execution D) (execute : ExecuteOptions → Execution D) : Prop where
  total_eq : total = (options.chosen size).length
  lt : completed < total
  dvd : max options.chunkSize 1 ∣ completed
  polls : stopped.polls = completed / max options.chunkSize 1 + 1
  again : ∀ run : ExecuteOptions, run.selection = some ((options.chosen size).take completed) →
    run.chunkSize = options.chunkSize → (∀ stops ∈ run.interrupt, ∀ n, stops n = false) →
    (execute run).data = stopped.data ∧ (execute run).printed.Perm stopped.printed ∧
      (options.parallel = false → run.parallel = false → (execute run).printed = stopped.printed) ∧
      ∃ report, (execute run).result = .ok report ∧ report.processed = completed

namespace Executable

variable {exe : Executable} {options : ExecuteOptions} {fuel completed total : Nat}

/-- A bound program that the host stops has run on the first of its elements. -/
theorem stopsAfter_of_runOn {D E : Type} [DataSet D E] {b : Binding D} {elements chosen : List E}
    (hselect : select elements options.selection = .ok chosen)
    (h : (exe.runOn options fuel b chosen).result = .error (.interrupted completed total))
    {execute : ExecuteOptions → Execution D}
    (hexecute : ∀ run first, select elements run.selection = .ok first → execute run = exe.runOn run fuel b first) :
    options.StopsAfter elements.length completed total (execute options) execute := by
  obtain ⟨count, hcount, printed, hruns, hprinted, hpolls, rfl, rfl⟩ := runs_of_runOn_interrupted h
  have hlt := lt_length_of_lt_chunksOf hcount
  have hpositive : 0 < max options.chunkSize 1 := Nat.lt_of_lt_of_le Nat.one_pos (Nat.le_max_right _ _)
  rw [hexecute options chosen hselect]
  refine ⟨length_of_select hselect, hlt, Nat.dvd_mul_left _ _, ?_, ?_⟩
  · rw [hpolls, Nat.mul_div_cancel _ hpositive]
  · intro run hselection hsize hgoes
    rw [hexecute run _ (hselection ▸ select_take hselect _)]
    rw [← hsize] at hruns hlt ⊢
    obtain ⟨polls, shown, hshown, hrun⟩ := runOn_of_runs hruns fun stops hstops n _ => hgoes stops hstops n
    rw [hrun]
    refine ⟨rfl, hshown.1.trans hprinted.1.symm, fun hnot hnot' => ?_, _, rfl, ?_⟩
    · exact (hshown.2 hnot').trans (hprinted.2 hnot).symm
    rw [List.length_take, Nat.min_eq_left (Nat.le_of_lt hlt)]

/-- A run that the host stops, over points or over volumes, is a run on the first of the chosen elements. -/
theorem stopsAfter_of_interrupted (exe : Executable) (options : ExecuteOptions) (fuel completed total : Nat) :
    (∀ data, (exe.runPoints data options fuel).result = .error (.interrupted completed total) →
      options.StopsAfter data.size completed total (exe.runPoints data options fuel) (exe.runPoints data · fuel)) ∧
    ∀ data, (exe.runVolumes data options fuel).result = .error (.interrupted completed total) →
      options.StopsAfter (iterated exe.registry (Binding.ofRegistry exe.registry data).1).length completed total
        (exe.runVolumes data options fuel) (exe.runVolumes data · fuel) := by
  constructor
  · intro data h
    rcases exe.runPoints_cases data options fuel with
      ⟨i, hrun⟩ | ⟨b, cause, -, hrun⟩ | ⟨b, points, hbind, hselect, hrun⟩
    · rw [hrun] at h
      cases h
    · rw [hrun] at h
      cases h
    · rw [hrun] at h
      have hstops := stopsAfter_of_runOn hselect h fun run first hfirst => runPoints_eq_runOn hfirst hbind
      rwa [List.length_range] at hstops
  · intro data h
    rcases exe.runVolumes_cases data options fuel with
      ⟨b, cause, -, hrun⟩ | ⟨b, i, -, hrun⟩ | ⟨b, voxels, hbind, hselect, hrun⟩
    · rw [hrun] at h
      cases h
    · rw [hrun] at h
      cases h
    · rw [hrun] at h
      rw [hbind]
      exact stopsAfter_of_runOn hselect h fun run first hfirst => runVolumes_eq_runOn hbind hfirst

end Executable

/-- Options with which the host stops before the second chunk. -/
def ExecuteOptions.stopsSecond (selection : List Nat) (chunkSize : Nat) : ExecuteOptions :=
  { selection := some selection, chunkSize, interrupt := some (· == 1) }

namespace Executable

/-- Turns of points are counted up to the chunk before which the host stops, and voxels are marked up to there. -/
theorem stopsAfter_of_interrupted_second :
    (∃ exe, Tree.counts.compile (.empty Tree.counts) .points {} = .ok exe ∧
      let stopped := exe.runPoints { size := 2 } (.stopsSecond [0, 1, 0] 2) 0
      stopped.result = .error (.interrupted 2 3) ∧ stopped.polls = 2 ∧
        stopped.data.numbers "a" = [some (.int32 1), some (.int32 1)] ∧
        (exe.runPoints { size := 2 } { selection := some [0, 1], chunkSize := 2 } 0).data = stopped.data) ∧
    ∃ exe, Tree.marksColumn.compile (.empty Tree.marksColumn) .volumes {} = .ok exe ∧
      let stopped := exe.runVolumes .twoVoxels (.stopsSecond [1, 0, 1] 1) 0
      stopped.result = .error (.interrupted 1 3) ∧ stopped.polls = 2 ∧
        (stopped.data.grid? "b").map Grid.active = some [⟨5, 0, 0⟩] ∧
        (exe.runVolumes .twoVoxels { selection := some [1], chunkSize := 1 } 0).data = stopped.data := by
  constructor
  · have hseen : (Tree.counts.compile (.empty Tree.counts) .points {}).toOption.map (fun exe =>
        ((exe.runPoints { size := 2 } (.stopsSecond [0, 1, 0] 2) 0).result,
          (exe.runPoints { size := 2 } (.stopsSecond [0, 1, 0] 2) 0).data.numbers "a")) =
        some (.error (.interrupted 2 3), [some (.int32 1), some (.int32 1)]) := by
      decide +kernel
    obtain ⟨exe, hcompile, hseen⟩ := exists_ok_of_map hseen
    obtain ⟨hresult, hnumbers⟩ := Prod.mk.inj hseen
    have hstops := (stopsAfter_of_interrupted exe _ 0 2 3).1 _ hresult
    have hagain := hstops.again { selection := some [0, 1], chunkSize := 2 } rfl rfl (by simp)
    exact ⟨exe, hcompile, hresult, hstops.polls, hnumbers, hagain.1⟩
  · have hseen : (Tree.marksColumn.compile (.empty Tree.marksColumn) .volumes {}).toOption.map (fun exe =>
        ((exe.runVolumes .twoVoxels (.stopsSecond [1, 0, 1] 1) 0).result,
          ((exe.runVolumes .twoVoxels (.stopsSecond [1, 0, 1] 1) 0).data.grid? "b").map Grid.active)) =
        some (.error (.interrupted 1 3), some [⟨5, 0, 0⟩]) := by
      decide +kernel
    obtain ⟨exe, hcompile, hseen⟩ := exists_ok_of_map hseen
    obtain ⟨hresult, hactive⟩ := Prod.mk.inj hseen
    have hstops := (stopsAfter_of_interrupted exe _ 0 1 3).2 _ hresult
    have hagain := hstops.again { selection := some [1], chunkSize := 1 } rfl rfl (by simp)
    exact ⟨exe, hcompile, hresult, hstops.polls, hactive, hagain.1⟩

end Executable

end Elementwise
