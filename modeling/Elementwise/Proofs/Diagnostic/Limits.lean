import Elementwise.Proofs.Diagnostic.Sink

/-!
# What a limit on errors leaves

A sink without a limit records all it is given, each diagnostic as the sink sees it. One with a limit records the
same but for the errors beyond the limit, counts all errors alike, and tells with the last error that it recorded
how many it left out.
-/

namespace Elementwise

namespace Diagnostic

/-- A list without its errors after the first `n`, the last of which is marked. -/
def firstErrors (mark : Diagnostic → Diagnostic) : Nat → List Diagnostic → List Diagnostic
  | _, [] => []
  | 0, d :: ds => if d.isError then firstErrors mark 0 ds else d :: firstErrors mark 0 ds
  | 1, d :: ds => if d.isError then mark d :: firstErrors mark 0 ds else d :: firstErrors mark 1 ds
  | n + 2, d :: ds => d :: firstErrors mark (if d.isError then n + 1 else n + 2) ds

/-- What a limit of `n` errors leaves of a list: all of it, unless it has more errors than that. Else the last
error that is left tells how many are not shown. -/
def limited (n : Nat) (ds : List Diagnostic) : List Diagnostic :=
  let hidden := ds.countP isError - n
  if hidden = 0 then ds
  else firstErrors (fun d => d.withNote (Nat.repr hidden ++ " further error(s) not shown")) n ds

theorem firstErrors_zero_cons (mark : Diagnostic → Diagnostic) (d : Diagnostic) (ds : List Diagnostic) :
    firstErrors mark 0 (d :: ds) = if d.isError then firstErrors mark 0 ds else d :: firstErrors mark 0 ds := rfl

/-- Unmarked, an error is kept as long as there is room. -/
theorem firstErrors_succ_cons (n : Nat) (d : Diagnostic) (ds : List Diagnostic) :
    firstErrors id (n + 1) (d :: ds) = d :: firstErrors id (if d.isError then n else n + 1) ds := by
  cases n with
  | zero =>
    rw [Nat.zero_add, firstErrors]
    split <;> rfl
  | succ n => rfl

theorem limited_eq_self {n : Nat} {ds : List Diagnostic} (h : ds.countP isError = 0) : limited n ds = ds := by
  rw [limited, if_pos (by omega)]

/-- The first errors are there as far as there are errors. -/
theorem countP_firstErrors (n : Nat) (ds : List Diagnostic) :
    (firstErrors id n ds).countP isError = min n (ds.countP isError) := by
  induction ds generalizing n with
  | nil => simp [firstErrors]
  | cons d ds ih =>
    cases n with
    | zero =>
      rw [firstErrors_zero_cons, Nat.zero_min]
      split
      · rw [ih, Nat.zero_min]
      · next hd => rw [List.countP_cons, ih, if_neg hd, Nat.zero_min]
    | succ n =>
      rw [firstErrors_succ_cons, List.countP_cons, List.countP_cons, ih]
      split <;> omega

/-- Nothing is left out if there are no more errors. -/
theorem firstErrors_eq_self {n : Nat} {ds : List Diagnostic} (h : ds.countP isError ≤ n) :
    firstErrors id n ds = ds := by
  induction ds generalizing n with
  | nil => cases n <;> rfl
  | cons d ds ih =>
    rw [List.countP_cons] at h
    cases n with
    | zero =>
      rw [firstErrors_zero_cons]
      split
      · next hd => simp [hd] at h
      · exact congrArg (List.cons d) (ih (by omega))
    | succ n =>
      rw [firstErrors_succ_cons]
      refine congrArg (List.cons d) (ih ?_)
      cases hd : d.isError <;> simp [hd] at h ⊢ <;> omega

end Diagnostic

namespace Sink

open Diagnostic

variable {s : Sink} {d : Diagnostic} {ds : List Diagnostic} {n : Nat}

/-- A note for the last error of a list, with one more diagnostic in front. -/
theorem noteLastError_cons (note : String) (d : Diagnostic) (ds : List Diagnostic) : noteLastError note (d :: ds) =
    if ds.countP isError = 0 then (if d.isError then d.withNote note else d) :: ds else d :: noteLastError note ds := by
  unfold noteLastError
  rw [List.reverse_cons, List.findIdx?_append]
  cases hfind : ds.reverse.findIdx? isError with
  | none =>
    have hnone : ds.countP isError = 0 := by simpa [List.countP_eq_zero] using hfind
    rw [if_pos hnone]
    cases hd : d.isError <;> simp [List.findIdx?_cons, hd]
  | some i =>
    obtain ⟨hi, herror, -⟩ := List.findIdx?_eq_some_iff_getElem.mp hfind
    have hsome : ds.countP isError ≠ 0 := by
      rw [ne_eq, List.countP_eq_zero]
      exact fun hnone => hnone _ (List.mem_reverse.mp (List.getElem_mem hi)) herror
    rw [List.length_reverse] at hi
    rw [if_neg hsome]
    simp only [List.length_cons, Option.some_or]
    obtain ⟨k, hk⟩ : ∃ k, ds.length - i = k + 1 := ⟨ds.length - i - 1, by omega⟩
    have hk' : ds.length + 1 - 1 - i = k + 1 := by omega
    have hk'' : ds.length - 1 - i = k := by omega
    rw [hk', hk'']
    rfl

/-- A note for the last error of a list that has none. -/
theorem noteLastError_eq_self (note : String) (h : ds.countP isError = 0) : noteLastError note ds = ds := by
  cases ds with
  | nil => rfl
  | cons d ds =>
    rw [List.countP_cons] at h
    rw [noteLastError_cons, if_pos (by omega)]
    split
    · next hd => simp [hd] at h
    · rfl

/-- A note for the last of the first errors. -/
theorem noteLastError_firstErrors (note : String) (h : n ≤ ds.countP isError) :
    noteLastError note (firstErrors id n ds) = firstErrors (fun d => d.withNote note) n ds := by
  have hzero (ds : List Diagnostic) : firstErrors id 0 ds = firstErrors (fun d => d.withNote note) 0 ds := by
    induction ds with
    | nil => rfl
    | cons d ds ih => rw [firstErrors_zero_cons, firstErrors_zero_cons, ih]
  -- the note reaches below a diagnostic in front if an error is kept there
  have hbelow {d : Diagnostic} {ds : List Diagnostic} {k : Nat} (hk : 0 < k) (h : k ≤ ds.countP isError) :
      noteLastError note (d :: firstErrors id k ds) = d :: noteLastError note (firstErrors id k ds) := by
    rw [noteLastError_cons, if_neg]
    rw [countP_firstErrors]
    omega
  induction ds generalizing n with
  | nil => cases n <;> rfl
  | cons d ds ih =>
    rw [List.countP_cons] at h
    rcases n with _ | _ | n
    · rw [noteLastError_eq_self _ (by rw [countP_firstErrors, Nat.zero_min]), hzero]
    · rw [firstErrors_succ_cons, firstErrors]
      cases hd : d.isError with
      | true =>
        rw [if_pos rfl, if_pos rfl, noteLastError_cons, countP_firstErrors, Nat.zero_min, if_pos rfl, if_pos hd, hzero]
      | false =>
        simp only [hd, Bool.false_eq_true, if_false, Nat.add_zero] at h ⊢
        rw [hbelow Nat.one_pos h, ih h]
    · rw [firstErrors_succ_cons, firstErrors, hbelow, ih]
      all_goals cases hd : d.isError <;> simp [hd] at h ⊢ <;> omega

/-! ## Recording -/

/-- What is not seen as an error is recorded. -/
theorem push_of_not_isError (h : (s.asSeen d).isError = false) :
    s.push d = { s with recorded := s.recorded ++ [s.asSeen d] } := by
  simp [push, h]

/-- What is seen as an error is counted, and recorded if there is room. -/
theorem push_of_isError (h : (s.asSeen d).isError = true) : s.push d =
    { s with errors := s.errors + 1, recorded := if s.hasRoom then s.recorded ++ [s.asSeen d] else s.recorded } := by
  simp [push, h]

/-- A sink that was given a diagnostic sees others as before. -/
theorem asSeen_push : (s.push d).asSeen = s.asSeen := by
  funext e
  rw [asSeen, asSeen, promote_push]

/-- The limit stays. -/
theorem maxErrors_push : (s.push d).maxErrors = s.maxErrors := by
  unfold push
  dsimp only
  split <;> rfl

variable (s ds)

theorem extend_extend (ds' : List Diagnostic) : (s.extend ds).extend ds' = s.extend (ds ++ ds') :=
  List.foldl_append.symm

theorem push_extend (d : Diagnostic) : (s.extend ds).push d = s.extend (ds ++ [d]) :=
  s.extend_extend ds [d]

/-- The limit stays while diagnostics are recorded. -/
theorem maxErrors_extend : (s.extend ds).maxErrors = s.maxErrors := by
  induction ds generalizing s with
  | nil => rfl
  | cons d ds ih => exact (ih _).trans maxErrors_push

/-- All errors are counted, whatever the limit is. -/
theorem errors_extend_asSeen : (s.extend ds).errors = s.errors + (ds.map s.asSeen).countP isError := by
  induction ds generalizing s with
  | nil => rfl
  | cons d ds ih =>
    rw [extend, List.foldl_cons, ← extend, ih, asSeen_push, List.map_cons, List.countP_cons]
    cases hd : (s.asSeen d).isError with
    | false =>
      rw [push_of_not_isError hd]
      rfl
    | true =>
      rw [push_of_isError hd, if_pos rfl]
      dsimp only
      omega

variable {s}

/-- Without a limit, everything is recorded. -/
theorem recorded_extend_none (h : s.maxErrors = none) :
    (s.extend ds).recorded = s.recorded ++ ds.map s.asSeen := by
  induction ds generalizing s with
  | nil => simp [extend]
  | cons d ds ih =>
    have hroom : s.hasRoom = true := by simp [hasRoom, h]
    rw [extend, List.foldl_cons, ← extend, ih (maxErrors_push.trans h), asSeen_push]
    cases hd : (s.asSeen d).isError with
    | false => simp [push_of_not_isError hd]
    | true => simp [push_of_isError hd, hroom]

/-- With a limit, everything is recorded but the errors beyond it. -/
theorem recorded_extend_some (h : s.maxErrors = some n) :
    (s.extend ds).recorded = s.recorded ++ firstErrors id (n - s.errors) (ds.map s.asSeen) := by
  induction ds generalizing s with
  | nil => simp [extend, firstErrors]
  | cons d ds ih =>
    rw [extend, List.foldl_cons, ← extend, ih (maxErrors_push.trans h), asSeen_push, List.map_cons]
    cases hd : (s.asSeen d).isError with
    | false =>
      rw [push_of_not_isError hd]
      cases hleft : n - s.errors with
      | zero => simp [firstErrors_zero_cons, hd]
      | succ k => simp [firstErrors_succ_cons, hd]
    | true =>
      rw [push_of_isError hd]
      cases hleft : n - s.errors with
      | zero =>
        have hroom : s.hasRoom = false := by simpa [hasRoom, h] using Nat.le_of_sub_eq_zero hleft
        simp [firstErrors_zero_cons, hd, hroom, show n - (s.errors + 1) = 0 by omega]
      | succ k =>
        have hroom : s.hasRoom = true := by simpa [hasRoom, h] using (show s.errors < n by omega)
        simp [firstErrors_succ_cons, hd, hroom, show n - (s.errors + 1) = k by omega]

/-! ## Settings

A sink that starts empty, with a limit on errors and with warnings promoted or not. -/

/-- What is seen of diagnostics by a sink that promotes warnings, or by one that does not. -/
def seen (promote : Bool) (ds : List Diagnostic) : List Diagnostic := ds.map ({ promote : Sink }.asSeen)

/-- Nothing is changed where warnings stay warnings. -/
theorem seen_false : seen false ds = ds := by
  have hseen : { promote := false : Sink }.asSeen = id := by
    funext d
    simp [asSeen]
  rw [seen, hseen, List.map_id]

/-- The number of diagnostics that count as errors. -/
def errorCount (promote : Bool) (ds : List Diagnostic) : Nat := (seen promote ds).countP isError

variable (maxErrors : Option Nat) (promote : Bool)

/-- Errors of two lists are counted in each. -/
theorem errorCount_append (ds' : List Diagnostic) :
    errorCount promote (ds ++ ds') = errorCount promote ds + errorCount promote ds' := by
  rw [errorCount, seen, List.map_append, List.countP_append]
  rfl

/-- Everything is an error where warnings are. -/
theorem errorCount_true : errorCount true ds = ds.length := by
  have hseen (d : Diagnostic) : ({ promote := true : Sink }.asSeen d).isError = true := by
    cases hd : d.severity <;> simp [asSeen, isError, withNote, hd]
  rw [errorCount, seen, List.countP_map, List.countP_eq_length]
  exact fun d _ => hseen d

/-- The errors that were counted, with any limit. -/
theorem errors_start : ({ maxErrors, promote : Sink }.extend ds).errors = errorCount promote ds := by
  rw [errors_extend_asSeen, Nat.zero_add]
  rfl

/-- The diagnostics of a sink without a limit. -/
theorem diagnostics_start_none : ({ maxErrors := none, promote : Sink }.extend ds).diagnostics = seen promote ds := by
  have hsuppressed : ({ maxErrors := none, promote : Sink }.extend ds).suppressed = 0 := by
    rw [suppressed, maxErrors_extend]
  rw [diagnostics, hsuppressed, if_neg (Nat.lt_irrefl 0), recorded_extend_none _ rfl]
  rfl

/-- The diagnostics of a sink with a limit. -/
theorem diagnostics_start_some (n : Nat) :
    ({ maxErrors := some n, promote : Sink }.extend ds).diagnostics = limited n (seen promote ds) := by
  have hsuppressed : ({ maxErrors := some n, promote : Sink }.extend ds).suppressed =
      (seen promote ds).countP isError - n := by
    rw [suppressed, maxErrors_extend, errors_start]
    rfl
  have hrecorded : ({ maxErrors := some n, promote : Sink }.extend ds).recorded = firstErrors id n (seen promote ds) :=
    recorded_extend_some ds rfl
  rw [diagnostics, limited, hsuppressed, hrecorded]
  split
  · next hhidden => rw [if_neg (by omega), noteLastError_firstErrors _ (by omega)]
  · next hhidden => rw [if_pos (by omega), firstErrors_eq_self (by omega)]

/-- The diagnostics of a sink that counted no error, with any limit. -/
theorem diagnostics_start_of_noError (h : errorCount promote ds = 0) :
    ({ maxErrors, promote : Sink }.extend ds).diagnostics = seen promote ds := by
  cases maxErrors with
  | none => exact diagnostics_start_none ds promote
  | some n => rw [diagnostics_start_some, limited_eq_self h]

end Sink

end Elementwise
