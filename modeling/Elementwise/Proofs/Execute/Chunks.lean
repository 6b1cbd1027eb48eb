import Elementwise.Execute.Basic
import Elementwise.Proofs.Code.Ending
import Elementwise.Proofs.DataSet.Fields
import Mathlib.Data.List.Nodup
import Mathlib.Tactic.Choose

/-!
# Running chunks

What a run over chunks does to a data set, whatever the host answers in between: the elements of a chunk are all read
from the data set that the chunks before it have left, and what they wrote is put back in order. A run that the host
does not stop does this for all chunks, and one that it stops has done so for the chunks before the stop.
-/

namespace Elementwise

/-! ## Choosing elements -/

section

variable {E : Type}

variable {selection : Option (List Nat)}

/-- The positions of the elements that are run, among so many. -/
def ExecuteOptions.chosen (o : ExecuteOptions) (size : Nat) : List Nat := o.selection.getD (List.range size)

/-- Where steps fail, one of them does. -/
theorem exists_of_mapM_eq_error {α β ε : Type} {f : α → Except ε β} {xs : List α} {err : ε}
    (h : xs.mapM f = .error err) : ∃ x ∈ xs, f x = .error err := by
  induction xs with
  | nil => cases h
  | cons x rest ih =>
    rw [List.mapM_cons] at h
    cases hx : f x with
    | error err' =>
      rw [hx] at h
      obtain rfl : err' = err := Except.error.inj h
      exact ⟨x, List.mem_cons_self, hx⟩
    | ok y =>
      cases hrest : rest.mapM f with
      | error err' =>
        rw [hx, hrest] at h
        obtain ⟨x', hx', hfails⟩ := ih (hrest.trans h)
        exact ⟨x', List.mem_cons_of_mem _ hx', hfails⟩
      | ok ys =>
        rw [hx, hrest] at h
        cases h

/-- A choice succeeds where every position has an element. -/
theorem select_eq_ok_iff {elements chosen : List E} :
    select elements selection = .ok chosen ↔
      (selection.getD (List.range elements.length)).map (elements[·]?) = chosen.map some := by
  cases selection with
  | none =>
    have hrange : (List.range elements.length).map (elements[·]?) = elements.map some :=
      List.ext_getElem (by simp) fun i h₁ h₂ => by simp
    rw [Option.getD_none, hrange, select, Except.ok.injEq]
    exact (List.map_inj_right fun a b => Option.some.inj).symm
  | some positions =>
    rw [select, Option.getD_some]
    induction positions generalizing chosen with
    | nil => cases chosen <;> simp [pure, Except.pure]
    | cons p rest ih =>
      rw [List.mapM_cons, List.map_cons]
      cases elements[p]? with
      | none => cases chosen <;> simp [bind, Except.bind]
      | some e =>
        cases chosen with
        | nil =>
          simp only [bind, Except.bind]
          split <;> simp [pure, Except.pure]
        | cons e' es =>
          rw [List.map_cons, List.cons.injEq, ← ih]
          simp only [bind, Except.bind]
          split <;> simp_all [pure, Except.pure]

/-- A choice fails at a position that has no element. -/
theorem select_eq_error {elements : List E} {err : ExecuteError} (h : select elements selection = .error err) :
    ∃ i, err = .selectionOutOfRange i elements.length := by
  cases selection with
  | none => cases h
  | some positions =>
    obtain ⟨i, -, hi⟩ := exists_of_mapM_eq_error h
    cases he : elements[i]? with
    | none =>
      rw [he] at hi
      exact ⟨i, (Except.error.inj hi).symm⟩
    | some e =>
      rw [he] at hi
      cases hi

/-- Among points that all exist, the chosen ones are the positions themselves. -/
theorem select_range {size : Nat} (h : ∀ p ∈ selection.getD (List.range size), p < size) :
    select (List.range size) selection = .ok (selection.getD (List.range size)) := by
  rw [select_eq_ok_iff, List.length_range]
  apply List.map_congr_left
  intro p hp
  exact List.getElem?_range (h p hp)

/-- As many elements are chosen as positions. -/
theorem length_of_select {elements chosen : List E} {o : ExecuteOptions}
    (h : select elements o.selection = .ok chosen) : chosen.length = (o.chosen elements.length).length := by
  have hlength := congrArg List.length (select_eq_ok_iff.mp h)
  rw [List.length_map, List.length_map] at hlength
  exact hlength.symm

/-- The first positions of a choice choose the first elements of it. -/
theorem select_take {elements chosen : List E} {o : ExecuteOptions} (h : select elements o.selection = .ok chosen)
    (count : Nat) : select elements (some ((o.chosen elements.length).take count)) = .ok (chosen.take count) := by
  rw [select_eq_ok_iff, Option.getD_some, List.map_take, List.map_take]
  exact congrArg (List.take count) (select_eq_ok_iff.mp h)

/-! ## Chunks of a list -/

/-- Chunks hold the elements in order. -/
theorem flatten_chunksOf (size : Nat) (elements : List E) : (chunksOf size elements).flatten = elements := by
  induction elements using chunksOf.induct size with
  | case1 => simp [chunksOf]
  | case2 e rest ih => rw [chunksOf, List.flatten_cons, ih, List.cons_append, List.take_append_drop]

/-- The first chunk is as large as it may be. -/
theorem chunksOf_eq_cons (size : Nat) {elements : List E} (h : elements ≠ []) :
    chunksOf size elements =
      elements.take (max size 1) :: chunksOf size (elements.drop (max size 1)) := by
  obtain ⟨e, rest, rfl⟩ := List.exists_cons_of_ne_nil h
  have hsize : max size 1 = size - 1 + 1 := by omega
  rw [chunksOf, hsize, List.take_succ_cons, List.drop_succ_cons]

/-- The first chunks are the chunks of the first elements. -/
theorem take_chunksOf (size count : Nat) (elements : List E) :
    (chunksOf size elements).take count = chunksOf size (elements.take (count * max size 1)) := by
  induction count generalizing elements with
  | zero => simp [chunksOf]
  | succ count ih =>
    by_cases helements : elements = []
    · simp [helements, chunksOf]
    · have hfirst : max size 1 ≤ (count + 1) * max size 1 := Nat.le_mul_of_pos_left _ (Nat.succ_pos _)
      have hrest : (count + 1) * max size 1 - max size 1 = count * max size 1 := by
        rw [Nat.succ_mul, Nat.add_sub_cancel]
      have htake : elements.take ((count + 1) * max size 1) ≠ [] := by
        rw [ne_eq, List.take_eq_nil_iff, not_or]
        exact ⟨by omega, helements⟩
      rw [chunksOf_eq_cons size helements, List.take_succ_cons, ih, chunksOf_eq_cons size htake, List.take_take,
        Nat.min_eq_left hfirst, List.drop_take, hrest]

/-- There are enough elements to fill every chunk but the last. -/
theorem lt_length_of_lt_chunksOf {size count : Nat} {elements : List E}
    (h : count < (chunksOf size elements).length) : count * max size 1 < elements.length := by
  induction count generalizing elements with
  | zero =>
    have hne : elements ≠ [] := fun hnil => by simp [hnil, chunksOf] at h
    simpa using List.length_pos_iff.mpr hne
  | succ count ih =>
    have hne : elements ≠ [] := fun hnil => by simp [hnil, chunksOf] at h
    rw [chunksOf_eq_cons size hne, List.length_cons] at h
    have hrest := ih (Nat.lt_of_succ_lt_succ h)
    rw [List.length_drop] at hrest
    rw [Nat.succ_mul]
    omega

end

/-! ## Running the elements of a chunk -/

/-- Whether an execution that ends so was rejected before anything was run. -/
def ExecuteError.isRejection : ExecuteError → Bool
  | binding _ | selectionOutOfRange _ _ => true
  | interrupted _ _ | fault _ | exhausted => false

/-- The changes of an element are the values of the slots that were written. -/
theorem ElementState.mem_changes {s : ElementState} {slot : Nat} {v : Value} :
    (slot, v) ∈ s.changes ↔ s.values[slot]? = some v ∧ s.written[slot]? = some true := by
  rw [changes, List.mem_filterMap]
  constructor
  · rintro ⟨⟨⟨value, written⟩, index⟩, hmem, heq⟩
    cases written with
    | false => simp at heq
    | true =>
      obtain ⟨rfl, rfl⟩ : index = slot ∧ value = v := by simpa using heq
      simpa [List.mem_zipIdx_iff_getElem?, List.getElem?_zip_eq_some] using hmem
  · rintro ⟨hvalue, hwritten⟩
    refine ⟨((v, true), slot), ?_, by simp⟩
    simpa [List.mem_zipIdx_iff_getElem?, List.getElem?_zip_eq_some] using ⟨hvalue, hwritten⟩

/-- What native calls printed, of which the last one stands first. -/
def NativeCall.printedBy (calls : List NativeCall) : List String := calls.reverse.flatMap NativeCall.printed

namespace Program

variable {E : Type} {program : Program} {fuel : Nat} {start final : E → ElementState} {calls : E → List NativeCall}
  {elements : List E}

/-- Elements that all come to their ends are run to these. -/
theorem runAll_of_ends (h : ∀ e ∈ elements, (program.run fuel (start e)).ending? = some ⟨none, final e, calls e⟩) :
    program.runAll fuel (elements.map start) =
      (elements.flatMap fun e => NativeCall.printedBy (calls e), .ok (elements.map final)) := by
  induction elements with
  | nil => rfl
  | cons e rest ih =>
    have hend := h e List.mem_cons_self
    have hrest := ih fun q hq => h q (List.mem_cons_of_mem _ hq)
    cases hrun : program.run fuel (start e) with
    | done flow m =>
      rw [hrun] at hend
      have hstate : m.state = final e := congrArg Ending.element (Option.some.inj hend)
      have hcalls : m.printed = NativeCall.printedBy (calls e) :=
        congrArg NativeCall.printedBy (congrArg Ending.calls (Option.some.inj hend))
      rw [List.map_cons, runAll, hrun]
      simp only [hrest, Except.map, List.map_cons, List.flatMap_cons, hstate, hcalls]
    | failed fault m =>
      rw [hrun] at hend
      simp [Outcome.ending?] at hend
    | exhausted =>
      rw [hrun] at hend
      cases hend

/-- Elements that were all run have come to their ends. -/
theorem ends_of_runAll {states : List ElementState} (h : (program.runAll fuel (elements.map start)).2 = .ok states) :
    ∀ e ∈ elements, ∃ final calls, (program.run fuel (start e)).ending? = some ⟨none, final, calls⟩ := by
  induction elements generalizing states with
  | nil => simp
  | cons e rest ih =>
    rw [List.map_cons, runAll] at h
    cases hrun : program.run fuel (start e) with
    | done flow m =>
      rw [hrun] at h
      cases hrest : (program.runAll fuel (rest.map start)).2 with
      | error err =>
        simp only [hrest, Except.map] at h
        cases h
      | ok states => exact List.forall_mem_cons.mpr ⟨⟨m.state, m.calls, by rw [hrun]; rfl⟩, ih hrest⟩
    | failed fault m =>
      rw [hrun] at h
      cases h
    | exhausted =>
      rw [hrun] at h
      cases h

/-- Elements that are not all run have one that fails or is out of fuel. -/
theorem runAll_error {states : List ElementState} {err : ExecuteError}
    (h : (program.runAll fuel states).2 = .error err) : (∃ cause, err = .fault cause) ∨ err = .exhausted := by
  induction states with
  | nil => cases h
  | cons s rest ih =>
    rw [runAll] at h
    cases hrun : program.run fuel s with
    | done flow m =>
      rw [hrun] at h
      cases hrest : (program.runAll fuel rest).2 with
      | error err' =>
        simp only [hrest, Except.map] at h
        exact ih (hrest.trans h)
      | ok states =>
        simp only [hrest, Except.map] at h
        cases h
    | failed fault m =>
      rw [hrun] at h
      exact .inl ⟨fault, (Except.error.inj h).symm⟩
    | exhausted =>
      rw [hrun] at h
      exact .inr (Except.error.inj h).symm

/-- Programs that come to their ends on elements do so with some fuel, and with any more. -/
theorem exists_fuel (h : ∀ e ∈ elements, ∃ calls, program.EndsWith (start e) ⟨none, final e, calls⟩) :
    ∃ bound, ∀ fuel ≥ bound, ∀ e ∈ elements, ∃ calls,
      (program.run fuel (start e)).ending? = some ⟨none, final e, calls⟩ := by
  induction elements with
  | nil => exact ⟨0, by simp⟩
  | cons e rest ih =>
    obtain ⟨calls, fuel, hend⟩ := h e List.mem_cons_self
    obtain ⟨bound, hrest⟩ := ih fun q hq => h q (List.mem_cons_of_mem _ hq)
    refine ⟨max fuel bound, fun more hmore => List.forall_mem_cons.mpr ⟨⟨calls, ?_⟩, ?_⟩⟩
    · exact ending?_run_le (Nat.le_trans (Nat.le_max_left _ _) hmore) hend
    · exact hrest more (Nat.le_trans (Nat.le_max_right _ _) hmore)

end Program

/-! ## Running elements at the same time -/

namespace ExecuteOptions

variable {o : ExecuteOptions} {n : Nat} {p : Program} {fuel : Nat} {start final : List ElementState}
  {a b a' b' : List String}

/-- What is printed is what was to be printed, in some order if elements may be run at the same time. -/
def Prints (o : ExecuteOptions) (printed expected : List String) : Prop :=
  printed.Perm expected ∧ (o.parallel = false → printed = expected)

theorem Prints.append (h : o.Prints a b) (h' : o.Prints a' b') : o.Prints (a ++ a') (b ++ b') :=
  ⟨h.1.append h'.1, fun hnot => by rw [h.2 hnot, h'.2 hnot]⟩

/-- Elements that all end one after another do so at the same time. -/
theorem evaluate_of_ok (h : (p.runAll fuel start).2 = .ok final) :
    ∃ printed, o.Prints printed (p.runAll fuel start).1 ∧ o.evaluate n p fuel start = (printed, .ok final) := by
  rw [evaluate]
  split
  · next hparallel =>
    obtain ⟨hstates, hprinted⟩ := (o.pool n).isolates.ended h
    exact ⟨_, ⟨hprinted, fun hnot => by simp [hnot] at hparallel⟩, Prod.ext rfl hstates⟩
  · exact ⟨_, ⟨.refl _, fun _ => rfl⟩, Prod.ext rfl h⟩

/-- Where elements do not all end, one of them fails or is out of fuel. -/
theorem evaluate_of_error {e : ExecuteError} (h : (p.runAll fuel start).2 = .error e) :
    ∃ printed e', ((∃ cause, e' = .fault cause) ∨ e' = .exhausted) ∧
      o.evaluate n p fuel start = (printed, .error e') := by
  rw [evaluate]
  split
  · obtain ⟨e', order, hfails, -, horder⟩ := (o.pool n).isolates.failed h
    exact ⟨_, e', Program.runAll_error horder, Prod.ext rfl hfails⟩
  · exact ⟨_, e, Program.runAll_error h, Prod.ext rfl h⟩

end ExecuteOptions

/-! ## Chunk after chunk -/

section

variable {D E : Type} [DataSet D E]

/-- Put back what elements wrote, one after another, if they ended in given states. -/
def scatterAll (targets : List (Option Handle)) (final : E → ElementState) (d : D) (elements : List E) : D :=
  elements.foldl (fun d e => scatter targets d e (final e)) d

/-- Putting back states beside their elements. -/
theorem foldl_zip_map (targets : List (Option Handle)) (final : E → ElementState) (d : D) (elements : List E) :
    (elements.zip (elements.map final)).foldl (fun d run => scatter targets d run.1 run.2) d =
      scatterAll targets final d elements := by
  induction elements generalizing d with
  | nil => rfl
  | cons e rest ih => exact ih _

/-- A program is run on chunks, one after another: every element of a chunk is read from the data set that the chunks
before have left and comes to its end, and what the elements wrote is put back in order. Beside the data set that is
left stands what was printed. -/
inductive RunsChunks (program : Program) (fuel : Nat) (handles : List Handle) (targets : List (Option Handle)) :
    D → List (List E) → List String → D → Prop
  | nil (d : D) : RunsChunks program fuel handles targets d [] [] d
  | cons {d after : D} {chunk : List E} {rest : List (List E)} {printed : List String}
      (final : E → ElementState) (calls : E → List NativeCall)
      (hends : ∀ e ∈ chunk, (program.run fuel (gather handles d e)).ending? = some ⟨none, final e, calls e⟩)
      (hrest : RunsChunks program fuel handles targets (scatterAll targets final d chunk) rest printed after) :
      RunsChunks program fuel handles targets d (chunk :: rest)
        (chunk.flatMap (fun e => NativeCall.printedBy (calls e)) ++ printed) after

theorem RunsChunks.mono {program : Program} {fuel more : Nat} {handles : List Handle}
    {targets : List (Option Handle)} {d after : D} {chunks : List (List E)} {printed : List String}
    (hmore : fuel ≤ more) (h : RunsChunks program fuel handles targets d chunks printed after) :
    RunsChunks program more handles targets d chunks printed after := by
  induction h with
  | nil d => exact .nil d
  | cons final calls hends _ ih => exact .cons final calls (fun e he => Program.ending?_run_le hmore (hends e he)) ih

/-- A host that does not stop the run lets it go on, and was asked at most once. -/
theorem Progress.poll_of_goesOn (s : Progress D) {interrupt : Option (Nat → Bool)}
    (h : ∀ stops ∈ interrupt, stops s.polls = false) :
    ∃ polls ≤ s.polls + 1, s.poll interrupt = (false, { s with polls }) := by
  cases interrupt with
  | none => exact ⟨s.polls, Nat.le_succ _, rfl⟩
  | some stops => exact ⟨s.polls + 1, Nat.le_refl _, by rw [poll, h stops rfl]⟩

/-- A host stops the run or lets it go on, and was asked once, if there is one. -/
theorem Progress.poll_cases (s : Progress D) (interrupt : Option (Nat → Bool)) :
    (s.poll interrupt = (true, { s with polls := s.polls + 1 }) ∧ interrupt.isSome = true) ∨
      ∃ polls, s.poll interrupt = (false, { s with polls }) ∧ (interrupt.isSome = true → polls = s.polls + 1) := by
  cases interrupt with
  | none => exact .inr ⟨s.polls, rfl, by simp⟩
  | some stops =>
    rw [poll]
    cases stops s.polls
    · exact .inr ⟨s.polls + 1, rfl, fun _ => rfl⟩
    · exact .inl ⟨rfl, rfl⟩

namespace Plan

variable {chunk : List E} {rest chunks : List (List E)} {printed : List String}

/-- One chunk that the host lets go on. -/
theorem runChunks_cons (plan : Plan) (s : Progress D) (rest : List (List E)) {polls : Nat} {final : E → ElementState}
    {calls : E → List NativeCall} (hpoll : s.poll plan.options.interrupt = (false, { s with polls }))
    (hends : ∀ e ∈ chunk,
      (plan.program.run plan.fuel (gather plan.handles s.data e)).ending? = some ⟨none, final e, calls e⟩) :
    ∃ printed, plan.options.Prints printed (chunk.flatMap fun e => NativeCall.printedBy (calls e)) ∧
      plan.runChunks (chunk :: rest) s = plan.runChunks rest
        { data := scatterAll plan.targets final s.data chunk, printed := s.printed ++ printed, polls,
          processed := s.processed + chunk.length, chunks := s.chunks + 1 } := by
  have hall := Program.runAll_of_ends hends
  obtain ⟨printed, hprints, hevaluate⟩ := ExecuteOptions.evaluate_of_ok (o := plan.options) (n := s.chunks)
    (congrArg Prod.snd hall)
  rw [hall] at hprints
  refine ⟨printed, hprints, ?_⟩
  rw [runChunks, hpoll]
  dsimp only
  rw [hevaluate]
  rw [← foldl_zip_map]

/-- A run that the host does not stop leaves what the chunks make of the data set. -/
theorem runChunks_of_runs (plan : Plan) (s : Progress D) {after : D}
    (h : RunsChunks plan.program plan.fuel plan.handles plan.targets s.data chunks printed after)
    (hgoes : ∀ stops ∈ plan.options.interrupt, ∀ n < s.polls + chunks.length, stops n = false) :
    ∃ polls shown, plan.options.Prints shown printed ∧ plan.runChunks chunks s =
      { data := after, printed := s.printed ++ shown, polls,
        result := .ok { processed := s.processed + chunks.flatten.length, chunks := s.chunks + chunks.length } } := by
  generalize hdata : s.data = d at h
  induction h generalizing s with
  | nil d =>
    refine ⟨s.polls, [], ⟨.refl _, fun _ => rfl⟩, ?_⟩
    rw [runChunks, Progress.finish, hdata]
    simp
  | @cons _ _ chunk rest _ final calls hends _ ih =>
    subst hdata
    obtain ⟨polls, hpolls, hpoll⟩ := s.poll_of_goesOn fun stops hstops => hgoes stops hstops s.polls (by simp)
    obtain ⟨first, hfirst, hrun⟩ := runChunks_cons plan s rest hpoll hends
    have hgoes' : ∀ stops ∈ plan.options.interrupt, ∀ n < polls + rest.length, stops n = false := by
      intro stops hstops n hn
      apply hgoes stops hstops n
      rw [List.length_cons]
      omega
    obtain ⟨polls', shown, hshown, hrest⟩ :=
      ih ⟨_, s.printed ++ first, polls, s.processed + chunk.length, s.chunks + 1⟩ hgoes' rfl
    refine ⟨polls', first ++ shown, hfirst.append hshown, (hrun.trans hrest).trans ?_⟩
    simp only [List.append_assoc, List.flatten_cons, List.length_append, List.length_cons, Nat.add_assoc,
      Nat.add_comm 1]

/-- What one chunk can come to: the host stops before it, one of its elements does not come to its end, or all of them
do. -/
theorem runChunks_cases (plan : Plan) (s : Progress D) (chunk : List E) (rest : List (List E)) :
    (plan.options.interrupt.isSome = true ∧ plan.runChunks (chunk :: rest) s =
      { s with polls := s.polls + 1 }.finish (.error (.interrupted s.processed plan.total))) ∨
    (∃ (failed : Progress D) (err : ExecuteError), ((∃ cause, err = .fault cause) ∨ err = .exhausted) ∧
      plan.runChunks (chunk :: rest) s = failed.finish (.error err)) ∨
    ∃ (polls : Nat) (final : E → ElementState) (calls : E → List NativeCall),
      s.poll plan.options.interrupt = (false, { s with polls }) ∧
      (plan.options.interrupt.isSome = true → polls = s.polls + 1) ∧
      ∀ e ∈ chunk,
        (plan.program.run plan.fuel (gather plan.handles s.data e)).ending? = some ⟨none, final e, calls e⟩ := by
  rcases s.poll_cases plan.options.interrupt with ⟨hpoll, hhost⟩ | ⟨polls, hpoll, hpolls⟩
  · exact .inl ⟨hhost, by rw [runChunks, hpoll]⟩
  · cases hall : (plan.program.runAll plan.fuel (chunk.map (gather plan.handles s.data))).2 with
    | error err =>
      obtain ⟨printed, err', herr, hevaluate⟩ :=
        ExecuteOptions.evaluate_of_error (o := plan.options) (n := s.chunks) hall
      refine .inr (.inl ⟨{ s with polls, printed := s.printed ++ printed }, err', herr, ?_⟩)
      rw [runChunks, hpoll]
      dsimp only
      rw [hevaluate]
    | ok states =>
      have : Nonempty ElementState := ⟨.start #[] none⟩
      choose! final calls hends using Program.ends_of_runAll hall
      exact .inr (.inr ⟨polls, final, calls, hpoll, hpolls, hends⟩)

/-- A run that the host stops has run the chunks before the stop, for each of which the host was asked, as it was
once more for the stop. -/
theorem runs_of_runChunks_interrupted (plan : Plan) (s : Progress D) {completed total : Nat}
    (h : (plan.runChunks chunks s).result = .error (.interrupted completed total)) :
    ∃ count < chunks.length, ∃ printed shown,
      RunsChunks plan.program plan.fuel plan.handles plan.targets s.data (chunks.take count) printed
        (plan.runChunks chunks s).data ∧
      plan.options.Prints shown printed ∧ (plan.runChunks chunks s).printed = s.printed ++ shown ∧
      (plan.runChunks chunks s).polls = s.polls + count + 1 ∧
      completed = s.processed + (chunks.take count).flatten.length ∧ total = plan.total ∧
      plan.options.interrupt.isSome = true := by
  induction chunks generalizing s with
  | nil => cases h
  | cons chunk rest ih =>
    rcases plan.runChunks_cases s chunk rest with
      ⟨hhost, hrun⟩ | ⟨failed, err, herr, hrun⟩ | ⟨polls, final, calls, hpoll, hpolls, hends⟩
    · rw [hrun] at h ⊢
      obtain ⟨rfl, rfl⟩ := ExecuteError.interrupted.inj (Except.error.inj h)
      exact ⟨0, Nat.succ_pos _, [], [], .nil _, ⟨.refl _, fun _ => rfl⟩, (List.append_nil _).symm, rfl, rfl, rfl, hhost⟩
    · rw [hrun] at h
      obtain rfl : err = .interrupted completed total := Except.error.inj h
      rcases herr with ⟨cause, hfault⟩ | hfuel
      · cases hfault
      · cases hfuel
    · obtain ⟨first, hfirst, hrun⟩ := runChunks_cons plan s rest hpoll hends
      rw [hrun] at h ⊢
      obtain ⟨count, hcount, printed, shown, hruns, hshown, hprinted, hasked, hcompleted, htotal, hhost⟩ := ih _ h
      refine ⟨count + 1, Nat.succ_lt_succ hcount, _, first ++ shown, .cons final calls hends hruns,
        hfirst.append hshown, ?_, ?_, ?_, htotal, hhost⟩
      · rw [hprinted, List.append_assoc]
      · rw [hasked, hpolls hhost]
        dsimp only
        omega
      · rw [hcompleted, List.take_succ_cons, List.flatten_cons, List.length_append, Nat.add_assoc]

/-- Once chunks are run, nothing is rejected. -/
theorem isRejection_of_runChunks (plan : Plan) (s : Progress D) {err : ExecuteError}
    (h : (plan.runChunks chunks s).result = .error err) : err.isRejection = false := by
  induction chunks generalizing s with
  | nil => cases h
  | cons chunk rest ih =>
    rcases plan.runChunks_cases s chunk rest with
      ⟨-, hrun⟩ | ⟨failed, err', herr, hrun⟩ | ⟨polls, final, calls, hpoll, -, hends⟩
    · rw [hrun] at h
      exact Except.error.inj h ▸ rfl
    · rw [hrun] at h
      obtain rfl : err' = err := Except.error.inj h
      rcases herr with ⟨cause, rfl⟩ | rfl
      · rfl
      · rfl
    · obtain ⟨first, -, hrun⟩ := runChunks_cons plan s rest hpoll hends
      rw [hrun] at h
      exact ih _ h

end Plan

/-! ## Bound programs -/

namespace Executable

variable {exe : Executable} {b : Binding D} {elements : List E} {options : ExecuteOptions} {fuel : Nat}

/-- How a bound program is run over elements. -/
def planOn (exe : Executable) (options : ExecuteOptions) (fuel : Nat) (b : Binding D) (elements : List E) : Plan :=
  ⟨exe.program, b.handles, exe.registry.writeTargets b.handles, options, fuel, elements.length⟩

/-- A bound program is run chunk after chunk, and what was created is added to the report. -/
theorem runOn_eq (exe : Executable) (options : ExecuteOptions) (fuel : Nat) (b : Binding D) (elements : List E) :
    exe.runOn options fuel b elements =
      let run := (exe.planOn options fuel b elements).runChunks (chunksOf options.chunkSize elements) { data := b.data }
      { run with result := run.result.map fun report => { report with created := b.created } } :=
  rfl

/-- A bound program that the host does not stop leaves what the chunks make of the data set. -/
theorem runOn_of_runs {printed : List String} {after : D}
    (h : RunsChunks exe.program fuel b.handles (exe.registry.writeTargets b.handles) b.data
      (chunksOf options.chunkSize elements) printed after)
    (hgoes : ∀ stops ∈ options.interrupt, ∀ n < (chunksOf options.chunkSize elements).length, stops n = false) :
    ∃ polls shown, options.Prints shown printed ∧ exe.runOn options fuel b elements =
      { data := after
        printed := shown
        polls
        result := .ok
          { processed := elements.length
            chunks := (chunksOf options.chunkSize elements).length
            created := b.created } } := by
  obtain ⟨polls, shown, hshown, hrun⟩ :=
    (exe.planOn options fuel b elements).runChunks_of_runs { data := b.data } h (by simpa [planOn] using hgoes)
  refine ⟨polls, shown, hshown, ?_⟩
  rw [runOn_eq, hrun]
  simp [Except.map, flatten_chunksOf]

/-- A bound program ends in the error that its chunks end in. -/
theorem runChunks_of_runOn_error {err : ExecuteError} (h : (exe.runOn options fuel b elements).result = .error err) :
    ((exe.planOn options fuel b elements).runChunks (chunksOf options.chunkSize elements) { data := b.data }).result =
      .error err := by
  rw [runOn_eq] at h
  dsimp only at h
  generalize (exe.planOn options fuel b elements).runChunks (chunksOf options.chunkSize elements) { data := b.data } =
    run at h ⊢
  cases hresult : run.result with
  | ok report =>
    rw [hresult] at h
    cases h
  | error err' =>
    rw [hresult] at h
    rw [Except.error.inj h]

/-- A bound program is not rejected. -/
theorem isRejection_of_runOn {err : ExecuteError} (h : (exe.runOn options fuel b elements).result = .error err) :
    err.isRejection = false :=
  Plan.isRejection_of_runChunks _ _ (runChunks_of_runOn_error h)

/-- A bound program that the host stops has run the chunks of the first elements. -/
theorem runs_of_runOn_interrupted {completed total : Nat}
    (h : (exe.runOn options fuel b elements).result = .error (.interrupted completed total)) :
    ∃ count < (chunksOf options.chunkSize elements).length, ∃ printed,
      RunsChunks exe.program fuel b.handles (exe.registry.writeTargets b.handles) b.data
        (chunksOf options.chunkSize (elements.take (count * max options.chunkSize 1))) printed
        (exe.runOn options fuel b elements).data ∧
      options.Prints (exe.runOn options fuel b elements).printed printed ∧
      (exe.runOn options fuel b elements).polls = count + 1 ∧ completed = count * max options.chunkSize 1 ∧
      total = elements.length := by
  obtain ⟨count, hcount, printed, shown, hruns, hshown, hprinted, hpolls, hcompleted, htotal, -⟩ :=
    Plan.runs_of_runChunks_interrupted _ _ (runChunks_of_runOn_error h)
  have hpolls : (exe.runOn options fuel b elements).polls = count + 1 := by
    rw [runOn_eq]
    simpa using hpolls
  have hlt := lt_length_of_lt_chunksOf hcount
  rw [take_chunksOf] at hruns hcompleted
  rw [flatten_chunksOf, List.length_take, Nat.min_eq_left (Nat.le_of_lt hlt)] at hcompleted
  exact ⟨count, hcount, printed, hruns, hprinted ▸ hshown, hpolls, by simpa using hcompleted, htotal⟩

end Executable

/-! ## Elements that own their values -/

section

variable {F : Type} [FieldData F E] [fields : HasFields D E F] {targets : List (Option Handle)} {d : D} {x y : E}
  {final : E → ElementState} {elements : List E}

include fields

/-- What an element wrote does not change what another one is run on. -/
theorem gather_scatter_of_ne (hne : y ≠ x) (handles : List Handle) (d : D) (state : ElementState) :
    gather handles (scatter targets d x state) y = gather handles d y := by
  have hread (i : Handle) : DataSet.read (scatter targets d x state) i y = DataSet.read d i y := by
    rw [scatter]
    generalize state.changes = changes
    induction changes generalizing d with
    | nil => rfl
    | cons change rest ih =>
      obtain ⟨slot, value⟩ := change
      rw [List.foldl_cons, ih]
      cases htarget : targets[slot]?.join with
      | none => simp only [htarget]
      | some j =>
        simp only [htarget]
        exact HasFields.read_write_of_ne hne d j i value
  simp only [gather, hread]

/-- What elements wrote does not change what another one is run on. -/
theorem gather_scatterAll_of_notMem (hy : y ∉ elements) (handles : List Handle) (d : D) :
    gather handles (scatterAll targets final d elements) y = gather handles d y := by
  induction elements generalizing d with
  | nil => rfl
  | cons x rest ih =>
    rw [List.mem_cons, not_or] at hy
    exact (ih hy.2 _).trans (gather_scatter_of_ne hy.1 handles d (final x))

/-- Where no element is run twice, each of them is run on what the data set held at first, whatever the chunks. -/
theorem RunsChunks.of_nodup {program : Program} {fuel : Nat} {handles : List Handle} {chunks : List (List E)}
    {calls : E → List NativeCall} (hnodup : chunks.flatten.Nodup)
    (hruns : ∀ e ∈ chunks.flatten, (program.run fuel (gather handles d e)).ending? = some ⟨none, final e, calls e⟩) :
    RunsChunks program fuel handles targets d chunks
      (chunks.flatten.flatMap fun e => NativeCall.printedBy (calls e)) (scatterAll targets final d chunks.flatten) := by
  induction chunks generalizing d with
  | nil => exact .nil d
  | cons chunk rest ih =>
    rw [List.flatten_cons] at hnodup hruns ⊢
    obtain ⟨-, hrest, hdisjoint⟩ := List.nodup_append.mp hnodup
    rw [List.flatMap_append, scatterAll, List.foldl_append]
    refine .cons final calls (fun e he => hruns e (List.mem_append_left _ he)) (ih hrest fun e he => ?_)
    have hnot : e ∉ chunk := fun hmem => hdisjoint e hmem e he rfl
    rw [gather_scatterAll_of_notMem hnot]
    exact hruns e (List.mem_append_right _ he)

end

end

/-! ## Executions -/

namespace Executable

variable {exe : Executable} {options : ExecuteOptions} {fuel : Nat}

/-- Points are run once they are chosen and the fields are bound. -/
theorem runPoints_eq_runOn {data : PointSet} {b : Binding PointSet} {points : List Nat}
    (hselect : select (List.range data.size) options.selection = .ok points)
    (hbind : Binding.ofRegistry exe.registry data = (b, none)) :
    exe.runPoints data options fuel = exe.runOn options fuel b points := by
  rw [runPoints, hselect, hbind]

/-- Voxels are run once the fields are bound and they are chosen. -/
theorem runVolumes_eq_runOn {data : VolumeSet} {b : Binding VolumeSet} {voxels : List Coord}
    (hbind : Binding.ofRegistry exe.registry data = (b, none))
    (hselect : select (iterated exe.registry b) options.selection = .ok voxels) :
    exe.runVolumes data options fuel = exe.runOn options fuel b voxels := by
  simp only [runVolumes, hbind, hselect]

/-- What an execution over points can do: reject the choice, fail to bind, or run. -/
theorem runPoints_cases (exe : Executable) (data : PointSet) (options : ExecuteOptions) (fuel : Nat) :
    (∃ i, exe.runPoints data options fuel = { data, result := .error (.selectionOutOfRange i data.size) }) ∨
    (∃ b cause, Binding.ofRegistry exe.registry data = (b, some cause) ∧
      exe.runPoints data options fuel = { data := b.data, result := .error (.binding cause) }) ∨
    ∃ b points, Binding.ofRegistry exe.registry data = (b, none) ∧
      select (List.range data.size) options.selection = .ok points ∧
      exe.runPoints data options fuel = exe.runOn options fuel b points := by
  cases hselect : select (List.range data.size) options.selection with
  | error err =>
    obtain ⟨i, rfl⟩ := select_eq_error hselect
    rw [List.length_range] at hselect
    exact .inl ⟨i, by rw [runPoints, hselect]⟩
  | ok points =>
    cases hbind : Binding.ofRegistry exe.registry data with
    | mk b result =>
      cases result with
      | some cause => exact .inr (.inl ⟨b, cause, rfl, by rw [runPoints, hselect, hbind]⟩)
      | none => exact .inr (.inr ⟨b, points, rfl, rfl, runPoints_eq_runOn hselect hbind⟩)

/-- What an execution over volumes can do: fail to bind, reject the choice, or run. -/
theorem runVolumes_cases (exe : Executable) (data : VolumeSet) (options : ExecuteOptions) (fuel : Nat) :
    (∃ b cause, Binding.ofRegistry exe.registry data = (b, some cause) ∧
      exe.runVolumes data options fuel = { data := b.data, result := .error (.binding cause) }) ∨
    (∃ b i, Binding.ofRegistry exe.registry data = (b, none) ∧ exe.runVolumes data options fuel =
      { data := b.data, result := .error (.selectionOutOfRange i (iterated exe.registry b).length) }) ∨
    ∃ b voxels, Binding.ofRegistry exe.registry data = (b, none) ∧
      select (iterated exe.registry b) options.selection = .ok voxels ∧
      exe.runVolumes data options fuel = exe.runOn options fuel b voxels := by
  cases hbind : Binding.ofRegistry exe.registry data with
  | mk b result =>
    cases result with
    | some cause => exact .inl ⟨b, cause, rfl, by rw [runVolumes, hbind]⟩
    | none =>
      cases hselect : select (iterated exe.registry b) options.selection with
      | error err =>
        obtain ⟨i, rfl⟩ := select_eq_error hselect
        exact .inr (.inl ⟨b, i, rfl, by simp only [runVolumes, hbind, hselect]⟩)
      | ok voxels => exact .inr (.inr ⟨b, voxels, rfl, hselect, runVolumes_eq_runOn hbind hselect⟩)

end Executable

end Elementwise
