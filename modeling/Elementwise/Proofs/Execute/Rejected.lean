import Elementwise.Proofs.Execute.Repeats
import Elementwise.Proofs.Execute.Voxelwise

/-!
# Executions that are rejected

An execution that cannot bind a field or whose choice has an element that is not there runs nothing. Fields are created
while the entries are bound, one after another, and what was created stays there when an execution is rejected later.
So the data set that is left has the fields that it had, as they were, and after them those that were created.
-/

namespace Elementwise

/-- The entries before the one of a name. -/
def Registry.before (r : Registry) (name : String) : List Entry := r.list.takeWhile fun e => e.name != name

/-- An entry whose name stands once parts the registry. -/
theorem Registry.before_eq {r : Registry} {before after : List Entry} {e : Entry}
    (hlist : r.list = before ++ e :: after) (hnodup : (r.list.map Entry.name).Nodup) : r.before e.name = before := by
  have hbefore : ∀ x ∈ before, (x.name != e.name) = true := by
    intro x hx
    rw [hlist, List.map_append, List.map_cons, List.nodup_append] at hnodup
    exact bne_iff_ne.mpr (hnodup.2.2 _ (List.mem_map_of_mem hx) _ List.mem_cons_self)
  rw [Registry.before, hlist, List.takeWhile_append_of_pos hbefore, List.takeWhile_cons_of_neg (by simp),
    List.append_nil]

section

variable {D E F : Type} [DataSet D E] [FieldData F E] [HasFields D E F] {r : Registry} {start : D}

open HasFields

/-- What an execution leaves of a data set if it is rejected. If an entry cannot be bound, the entries before it that
were missing are created, all of which are written. If a chosen element is not there, some entries are created, in
the case of points none and in that of volumes all that were missing. If all entries that are written are there,
nothing has changed. -/
structure Execution.LeavesCreated (r : Registry) (start : D) (created : List Entry) (x : Execution D) : Prop where
  binding : ∀ cause, x.result = .error (.binding cause) → cause.name ∈ r.list.map Entry.name ∧
    (∀ e ∈ missing start (r.before cause.name), e.writable = true) ∧
    x.data = add start (missing start (r.before cause.name))
  selection : ∀ i size, x.result = .error (.selectionOutOfRange i size) → x.data = add start created
  unchanged : missing start r.writable = [] → ∀ err : ExecuteError, err.isRejection = true →
    x.result = .error err → x.data = start

/-- Where no entry is missing that is written, binding creates nothing. -/
theorem Binding.Binds.data_eq_start {b : Binding D} {entries : List Entry} (h : b.Binds start entries)
    (hentries : entries ⊆ r.list) (hnone : missing start r.writable = []) : b.data = start := by
  have hmissing : missing start entries = [] := by
    rw [List.eq_nil_iff_forall_not_mem]
    intro e he
    obtain ⟨hmem, hlacks⟩ := List.mem_filter.mp he
    have hwritten : e ∈ r.writable := List.mem_filter.mpr ⟨hentries hmem, h.writable e he⟩
    have hcreated : e ∈ missing start r.writable := List.mem_filter.mpr ⟨hwritten, hlacks⟩
    exact List.not_mem_nil (hnone ▸ hcreated)
  rw [h.data, hmissing, add_nil]

namespace Execution.LeavesCreated

variable {created : List Entry}

/-- An execution that fails to bind leaves what was bound before. -/
theorem of_binding (hnodup : (r.list.map Entry.name).Nodup) {b : Binding D} {cause : BindingError}
    (hbind : Binding.ofRegistry r start = (b, some cause)) :
    LeavesCreated r start created { data := b.data, result := .error (.binding cause) } := by
  obtain ⟨before, e, after, hlist, hbinds, hname⟩ := Binding.ofRegistry_rejected hnodup (congrArg Prod.snd hbind)
  rw [hbind] at hbinds
  refine ⟨fun cause' hresult => ?_, fun i size hresult => (by cases hresult), fun hnone err _ _ => ?_⟩
  · obtain rfl : cause = cause' := ExecuteError.binding.inj (Except.error.inj hresult)
    rw [hname, Registry.before_eq hlist hnodup]
    refine ⟨List.mem_map_of_mem ?_, hbinds.writable, hbinds.data⟩
    rw [hlist]
    exact List.mem_append_right _ List.mem_cons_self
  · exact hbinds.data_eq_start (hlist ▸ List.subset_append_left _ _) hnone

/-- An execution that rejects a choice leaves what was created before. -/
theorem of_selection {d : D} {i size : Nat} (hdata : d = add start created)
    (hcreated : missing start r.writable = [] → created = []) :
    LeavesCreated r start created { data := d, result := .error (.selectionOutOfRange i size) } := by
  refine ⟨fun cause hresult => (by cases hresult), fun _ _ _ => hdata, fun hnone err _ _ => ?_⟩
  rw [hdata, hcreated hnone, add_nil]

/-- An execution that is not rejected. -/
theorem of_run {x : Execution D} (h : ∀ err, x.result = .error err → err.isRejection = false) :
    LeavesCreated r start created x := by
  refine ⟨fun cause hresult => ?_, fun i size hresult => ?_, fun _ err hrejected hresult => ?_⟩
  · cases h _ hresult
  · cases h _ hresult
  · rw [h err hresult] at hrejected
    cases hrejected

end Execution.LeavesCreated

end

namespace Executable

/-- An execution of a compiled program that is rejected leaves the data set as it was, apart from the entries that
were created before. -/
theorem leavesCreated_of_rejected {t : Tree} {map : SourceMap} {target : Target} {options : CompileOptions}
    {exe : Executable} (hcompile : t.compile map target options = .ok exe) (run : ExecuteOptions) (fuel : Nat) :
    (∀ data : PointSet, (exe.runPoints data run fuel).LeavesCreated exe.registry data []) ∧
    ∀ data : VolumeSet,
      (exe.runVolumes data run fuel).LeavesCreated exe.registry data (data.missing exe.registry.writable) := by
  have hnames := Tree.names_nodup_of_compile hcompile
  constructor
  · intro data
    rcases exe.runPoints_cases data run fuel with ⟨i, hrun⟩ | ⟨b, cause, hbind, hrun⟩ | ⟨b, points, -, -, hrun⟩
    · rw [hrun]
      exact .of_selection (HasFields.add_nil data).symm fun _ => rfl
    · rw [hrun]
      exact .of_binding hnames hbind
    · rw [hrun]
      exact .of_run fun err hresult => isRejection_of_runOn hresult
  · intro data
    rcases exe.runVolumes_cases data run fuel with
      ⟨b, cause, hbind, hrun⟩ | ⟨b, i, hbind, hrun⟩ | ⟨b, voxels, -, -, hrun⟩
    · rw [hrun]
      exact .of_binding hnames hbind
    · rw [hrun]
      -- the choice is checked once all entries are bound
      have hbinds := Binding.ofRegistry_binds hnames (congrArg Prod.snd hbind)
      rw [hbind] at hbinds
      have hdata : b.data = data.addEmpty (data.missing exe.registry.writable) :=
        hbinds.data.trans (congrArg data.addEmpty hbinds.missing_writable)
      exact .of_selection hdata fun hnone => hnone
    · rw [hrun]
      exact .of_run fun err hresult => isRejection_of_runOn hresult

/-- An execution that lacks a field to read creates the field to write, if it is missing, and changes nothing if it
is there. -/
theorem leavesCreated_of_rejected_copied :
    ∃ exe, Tree.copied.compile (.empty Tree.copied) .points {} = .ok exe ∧
      (exe.runPoints { size := 2 } {} 0).result = .error (.binding (.missingReadOnly .points "b" .int32)) ∧
      (exe.runPoints { size := 2 } {} 0).data = ({ size := 2 } : PointSet).addZeros [⟨"n", .int32, true, 0⟩] ∧
      let data := ({ size := 2 } : PointSet).setUniform "n" (.int32 7)
      (exe.runPoints data {} 0).result = .error (.binding (.missingReadOnly .points "b" .int32)) ∧
        (exe.runPoints data {} 0).data = data := by
  have hseen : (Tree.copied.compile (.empty Tree.copied) .points {}).toOption.map (fun exe =>
      (exe.registry.list, (exe.runPoints { size := 2 } {} 0).result,
        (exe.runPoints (({ size := 2 } : PointSet).setUniform "n" (.int32 7)) {} 0).result)) =
      some ([⟨"n", .int32, true, 0⟩, ⟨"b", .int32, false, 1⟩],
        .error (.binding (.missingReadOnly .points "b" .int32)),
        .error (.binding (.missingReadOnly .points "b" .int32))) := by
    decide +kernel
  obtain ⟨exe, hcompile, hseen⟩ := exists_ok_of_map hseen
  obtain ⟨hlist, hresults⟩ := Prod.mk.inj hseen
  obtain ⟨hlacks, hhas⟩ := Prod.mk.inj hresults
  have hleaves := (leavesCreated_of_rejected hcompile {} 0).1
  refine ⟨exe, hcompile, hlacks, ?_, hhas, ?_⟩
  · obtain ⟨-, -, hdata⟩ := (hleaves { size := 2 }).binding _ hlacks
    rw [hdata, Registry.before, hlist]
    rfl
  · have hnone :
        HasFields.missing (({ size := 2 } : PointSet).setUniform "n" (.int32 7)) exe.registry.writable = [] := by
      rw [Registry.writable, hlist]
      rfl
    exact (hleaves _).unchanged hnone _ rfl hhas

/-- A rejected execution does not leave the data set as it was: the field of a point set that could be created is there
when another one cannot be bound, and so are the grids of a volume when a chosen voxel is not there. -/
theorem leavesCreated_of_rejected_not_unchanged :
    (∃ exe, Tree.copied.compile (.empty Tree.copied) .points {} = .ok exe ∧
      (exe.runPoints { size := 2 } {} 0).result = .error (.binding (.missingReadOnly .points "b" .int32)) ∧
      (exe.runPoints { size := 2 } {} 0).data ≠ { size := 2 }) ∧
    ∃ exe, Tree.counts.compile (.empty Tree.counts) .volumes {} = .ok exe ∧
      (exe.runVolumes {} { selection := some [0] } 0).result = .error (.selectionOutOfRange 0 0) ∧
      (exe.runVolumes {} { selection := some [0] } 0).data ≠ {} := by
  constructor
  · have hseen : (Tree.copied.compile (.empty Tree.copied) .points {}).toOption.map (fun exe =>
        ((exe.runPoints { size := 2 } {} 0).result, (exe.runPoints { size := 2 } {} 0).data.columns.names)) =
        some (.error (.binding (.missingReadOnly .points "b" .int32)), ["n"]) := by
      decide +kernel
    obtain ⟨exe, hcompile, hseen⟩ := exists_ok_of_map hseen
    obtain ⟨hresult, hnames⟩ := Prod.mk.inj hseen
    refine ⟨exe, hcompile, hresult, fun hsame => ?_⟩
    rw [hsame] at hnames
    cases hnames
  · have hseen : (Tree.counts.compile (.empty Tree.counts) .volumes {}).toOption.map (fun exe =>
        ((exe.runVolumes {} { selection := some [0] } 0).result,
          (exe.runVolumes {} { selection := some [0] } 0).data.grids.names)) =
        some (.error (.selectionOutOfRange 0 0), ["a"]) := by
      decide +kernel
    obtain ⟨exe, hcompile, hseen⟩ := exists_ok_of_map hseen
    obtain ⟨hresult, hnames⟩ := Prod.mk.inj hseen
    refine ⟨exe, hcompile, hresult, fun hsame => ?_⟩
    rw [hsame] at hnames
    cases hnames

end Executable

end Elementwise
