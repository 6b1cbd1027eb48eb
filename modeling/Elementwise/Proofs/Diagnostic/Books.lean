import Elementwise.Proofs.Diagnostic.Limits

/-!
# The books of a sink

Diagnostics reach a sink one by one or many at once. Whatever the calls are, the sink holds what it was given
in order, but for the errors beyond its limit; what it counts is what it holds and what it left out; and what it
hands over in the end differs from what it holds in the last error at most.
-/

namespace Elementwise

namespace Diagnostic

/-- The diagnostic where warnings are treated as errors. -/
def promoted (d : Diagnostic) : Diagnostic :=
  match d.severity with
  | .error => d
  | .warning => { d with severity := .error, notes := d.notes ++ ["warning treated as error"] }

/-- What there is room for: all warnings, and the first errors up to a limit. -/
def roomFor (maxErrors : Option Nat) (ds : List Diagnostic) : List Diagnostic :=
  match maxErrors with
  | none => ds
  | some n => firstErrors id n ds

/-- No warning is left out, and the errors that are kept are the first ones. -/
theorem filter_firstErrors (n : Nat) (ds : List Diagnostic) :
    (firstErrors id n ds).filter (!·.isError) = ds.filter (!·.isError) ∧
      (firstErrors id n ds).filter isError = (ds.filter isError).take n := by
  induction ds generalizing n with
  | nil => simp [firstErrors]
  | cons d ds ih =>
    cases n with
    | zero => cases hd : d.isError <;> simp [firstErrors_zero_cons, hd, ih]
    | succ n => cases hd : d.isError <;> simp [firstErrors_succ_cons, hd, ih]

/-- All warnings stay, with the errors that there is room for. -/
theorem filter_roomFor (maxErrors : Option Nat) (ds : List Diagnostic) :
    (roomFor maxErrors ds).filter (!·.isError) = ds.filter (!·.isError) ∧
      (roomFor maxErrors ds).filter isError =
        (ds.filter isError).take (maxErrors.getD (ds.countP isError)) := by
  cases maxErrors with
  | none => exact ⟨rfl, by simp [roomFor, List.countP_eq_length_filter]⟩
  | some n => exact filter_firstErrors n ds

end Diagnostic

namespace Sink

open Diagnostic

/-- A call that gives diagnostics to a sink. -/
inductive Call where
  | push (d : Diagnostic)
  | extend (ds : List Diagnostic)

/-- The sink after a call. -/
def Call.run (s : Sink) : Call → Sink
  | push d => s.push d
  | extend ds => s.extend ds

/-- What a call gives to a sink. -/
def Call.given : Call → List Diagnostic
  | push d => [d]
  | extend ds => ds

theorem Call.run_eq_extend (s : Sink) (call : Call) : call.run s = s.extend call.given := by cases call <;> rfl

/-- Calls record what they give, one after another. -/
theorem foldl_run_eq_extend (s : Sink) (calls : List Call) :
    calls.foldl Call.run s = s.extend (calls.flatMap Call.given) := by
  induction calls generalizing s with
  | nil => rfl
  | cons call calls ih => rw [List.foldl_cons, ih, Call.run_eq_extend, extend_extend, List.flatMap_cons]

/-- A sink sees each diagnostic as it is, or promoted. -/
theorem seen_eq_map (promote : Bool) (ds : List Diagnostic) :
    seen promote ds = ds.map fun d => if promote then d.promoted else d := by
  refine List.map_congr_left fun d _ => ?_
  cases promote <;> cases hd : d.severity <;> simp [asSeen, promoted, withNote, hd]

/-- What a sink holds that started empty. -/
theorem recorded_start (maxErrors : Option Nat) (promote : Bool) (ds : List Diagnostic) :
    ({ maxErrors, promote : Sink }.extend ds).recorded = roomFor maxErrors (seen promote ds) := by
  cases maxErrors with
  | none => exact recorded_extend_none ds rfl
  | some n => exact recorded_extend_some ds rfl

/-- What is counted is what is held and what was left out. -/
theorem errors_eq_add_suppressed (maxErrors : Option Nat) (promote : Bool) (ds : List Diagnostic) :
    ({ maxErrors, promote : Sink }.extend ds).errors =
      ({ maxErrors, promote : Sink }.extend ds).recorded.countP isError +
        ({ maxErrors, promote : Sink }.extend ds).suppressed := by
  rw [suppressed, maxErrors_extend, recorded_start, errors_start, errorCount]
  cases maxErrors with
  | none => rfl
  | some n =>
    rw [roomFor, countP_firstErrors]
    dsimp only
    omega

/-- Something is counted if something is seen as an error. -/
theorem hasFatal_start (maxErrors : Option Nat) (promote : Bool) (ds : List Diagnostic) :
    ({ maxErrors, promote : Sink }.extend ds).hasFatal = true ↔
      ∃ d ∈ ds, d.severity = .error ∨ d.severity = .warning ∧ promote = true := by
  have hseen (d : Diagnostic) : (if promote then d.promoted else d).isError = true ↔
      d.severity = .error ∨ d.severity = .warning ∧ promote = true := by
    cases promote <;> cases hd : d.severity <;> simp [promoted, isError, hd]
  rw [hasFatal, errors_start, errorCount, seen_eq_map, decide_eq_true_iff, List.countP_map, List.countP_pos_iff]
  exact exists_congr fun d => and_congr_right fun _ => hseen d

/-- A note goes to the last error, over the warnings after it. -/
theorem noteLastError_split (note : String) {ds : List Diagnostic} (h : 0 < ds.countP isError) :
    ∃ before e after, ds = before ++ e :: after ∧ e.isError = true ∧ (∀ d ∈ after, d.isError = false) ∧
      noteLastError note ds = before ++ e.withNote note :: after := by
  induction ds with
  | nil => cases h
  | cons d ds ih =>
    rw [noteLastError_cons]
    by_cases hds : ds.countP isError = 0
    · have hd : d.isError = true := by
        rw [List.countP_cons, hds] at h
        cases hd : d.isError <;> simp [hd] at h ⊢
      rw [if_pos hds, if_pos hd]
      exact ⟨[], d, ds, rfl, hd, by simpa [List.countP_eq_zero] using hds, rfl⟩
    · obtain ⟨before, e, after, rfl, he, hafter, heq⟩ := ih (Nat.pos_of_ne_zero hds)
      rw [if_neg hds, heq]
      exact ⟨d :: before, e, after, rfl, he, hafter, rfl⟩

/-- The books of a sink are exact, whatever its limit and its treatment of warnings are, and however it was given
what it was given. It holds the warnings and the first errors, in order; it has counted what it holds and what
it left out; it is fatal if there was an error; and it hands over what it holds, where the last error tells how
many were left out, if there are any. -/
theorem books_exact (maxErrors : Option Nat) (promote : Bool) (calls : List Call) :
    let s := calls.foldl Call.run { maxErrors, promote : Sink }
    let given := calls.flatMap Call.given
    let asSeen := given.map fun d => if promote then d.promoted else d
    s.recorded = roomFor maxErrors asSeen ∧
      s.recorded.filter (!·.isError) = asSeen.filter (!·.isError) ∧
      s.recorded.filter isError = (asSeen.filter isError).take (maxErrors.getD (asSeen.countP isError)) ∧
      s.errors = s.recorded.countP isError + s.suppressed ∧
      (s.hasFatal = true ↔ ∃ d ∈ given, d.severity = .error ∨ d.severity = .warning ∧ promote = true) ∧
      (s.suppressed = 0 ∨ s.recorded.countP isError = 0 → s.diagnostics = s.recorded) ∧
      (0 < s.suppressed → 0 < s.recorded.countP isError →
        ∃ before e after, s.recorded = before ++ e :: after ∧ e.isError = true ∧
          (∀ d ∈ after, d.isError = false) ∧
          s.diagnostics =
            before ++ e.withNote (Nat.repr s.suppressed ++ " further error(s) not shown") :: after) := by
  intro s given asSeen
  have hs : s = { maxErrors, promote : Sink }.extend given := foldl_run_eq_extend _ calls
  have hrecorded : s.recorded = roomFor maxErrors asSeen := by
    rw [hs, recorded_start, seen_eq_map]
  refine ⟨hrecorded, ?_, ?_, ?_, ?_, ?_, ?_⟩
  · rw [hrecorded]
    exact (filter_roomFor maxErrors asSeen).1
  · rw [hrecorded]
    exact (filter_roomFor maxErrors asSeen).2
  · rw [hs]
    exact errors_eq_add_suppressed maxErrors promote given
  · rw [hs]
    exact hasFatal_start maxErrors promote given
  · rintro (hnone | hnone)
    · rw [Sink.diagnostics, if_neg (by omega)]
    · rw [Sink.diagnostics, noteLastError_eq_self _ hnone, ite_self]
  · intro hhidden herror
    rw [Sink.diagnostics, if_pos hhidden]
    exact noteLastError_split _ herror

end Sink

end Elementwise
