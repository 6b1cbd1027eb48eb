import Elementwise.Diagnostic.Sink

/-!
# Counting errors

A sink never forgets an error, and counts every one that it is given. Whoever gathers diagnostics in
it leaves it as if each had been recorded in turn, so what holds of one of them holds of all.
-/

namespace Elementwise.Sink

variable {s : Sink} {d : Diagnostic}

/-- No diagnostic takes an error back. -/
theorem errors_le_push : s.errors ≤ (s.push d).errors := by
  unfold push
  dsimp only
  split
  · exact Nat.le_succ _
  · exact Nat.le_refl _

/-- A diagnostic is counted if it is an error, or if warnings are promoted. -/
theorem errors_push : (s.push d).errors = if d.severity = .error ∨ s.promote = true then s.errors + 1 else s.errors := by
  have hseen : (s.asSeen d).isError = decide (d.severity = .error ∨ s.promote = true) := by
    unfold asSeen
    cases hd : d.severity <;> cases hs : s.promote <;> simp [Diagnostic.isError, Diagnostic.withNote, hd]
  unfold push
  dsimp only
  rw [hseen]
  simp only [decide_eq_true_eq]
  split <;> rfl

theorem errors_push_error (h : d.severity = .error) : (s.push d).errors = s.errors + 1 := by
  rw [errors_push, if_pos (.inl h)]

/-- Errors are counted one by one. -/
theorem errors_extend {ds : List Diagnostic} (h : ∀ d ∈ ds, d.severity = .error) :
    (s.extend ds).errors = s.errors + ds.length := by
  induction ds generalizing s with
  | nil => rfl
  | cons d ds ih =>
    rw [List.forall_mem_cons] at h
    have hrest : ((s.push d).extend ds).errors = (s.push d).errors + ds.length := ih h.2
    rw [errors_push_error h.1] at hrest
    rw [List.length_cons]
    exact hrest.trans (by omega)

/-- Whether warnings are promoted stays. -/
theorem promote_push : (s.push d).promote = s.promote := by
  unfold push
  dsimp only
  split <;> rfl

theorem hasFatal_eq_false : s.hasFatal = false ↔ s.errors = 0 := by
  simp [hasFatal]

/-- What was gathered in a sink since, all of it as stated. -/
def Gathers (P : Diagnostic → Prop) (s s' : Sink) : Prop := ∃ ds, s' = s.extend ds ∧ ∀ d ∈ ds, P d

namespace Gathers

variable {P : Diagnostic → Prop} {s s' s'' : Sink}

theorem refl (s : Sink) : Gathers P s s := ⟨[], rfl, nofun⟩

theorem push (h : P d) : Gathers P s (s.push d) := ⟨[d], rfl, by simpa using h⟩

theorem trans (h : Gathers P s s') (h' : Gathers P s' s'') : Gathers P s s'' := by
  obtain ⟨ds, rfl, hds⟩ := h
  obtain ⟨ds', rfl, hds'⟩ := h'
  refine ⟨ds ++ ds', List.foldl_append.symm, fun d hd => ?_⟩
  exact (List.mem_append.mp hd).elim (hds d) (hds' d)

/-- Steps of a fold that each gather. -/
theorem foldl {α β : Type} {f : α → β → α} (sink : α → Sink) (hf : ∀ a b, Gathers P (sink a) (sink (f a b)))
    (a : α) (bs : List β) : Gathers P (sink a) (sink (bs.foldl f a)) := by
  induction bs generalizing a with
  | nil => exact refl _
  | cons b bs ih => exact (hf a b).trans (ih (f a b))

/-- What was gathered takes no error back. -/
theorem errors_le (h : Gathers P s s') : s.errors ≤ s'.errors := by
  obtain ⟨ds, rfl, -⟩ := h
  induction ds generalizing s with
  | nil => exact Nat.le_refl _
  | cons d ds ih => exact Nat.le_trans errors_le_push ih

/-- Whether warnings are promoted stays. -/
theorem promote (h : Gathers P s s') : s'.promote = s.promote := by
  obtain ⟨ds, rfl, -⟩ := h
  induction ds generalizing s with
  | nil => rfl
  | cons d ds ih => exact ih.trans promote_push

end Gathers

/-- No diagnostic of a kind is recorded. -/
def Lacks (kind : ErrorKind) (s : Sink) : Prop := ∀ d ∈ s.recorded, d.kind ≠ kind

/-- A diagnostic of another kind may be recorded. -/
theorem Lacks.push {kind : ErrorKind} (hs : s.Lacks kind) (hd : d.kind ≠ kind) : (s.push d).Lacks kind := by
  have hseen : (s.asSeen d).kind ≠ kind := by
    unfold asSeen
    split <;> exact hd
  intro e he
  unfold Sink.push at he
  dsimp only at he
  split at he
  · split at he
    · rcases List.mem_append.mp he with he | he
      · exact hs e he
      · exact List.mem_singleton.mp he ▸ hseen
    · exact hs e he
  · rcases List.mem_append.mp he with he | he
    · exact hs e he
    · exact List.mem_singleton.mp he ▸ hseen

/-- Diagnostics of other kinds may be gathered. -/
theorem Lacks.gathers {kind : ErrorKind} {s' : Sink} (hs : s.Lacks kind) (h : Gathers (·.kind ≠ kind) s s') :
    s'.Lacks kind := by
  obtain ⟨ds, rfl, hds⟩ := h
  induction ds generalizing s with
  | nil => exact hs
  | cons d ds ih => exact ih (hs.push (hds d List.mem_cons_self)) fun e he => hds e (List.mem_cons_of_mem _ he)

/-- A note on how many errors were left out changes no kind. -/
theorem Lacks.diagnostics {kind : ErrorKind} (hs : s.Lacks kind) : ∀ d ∈ s.diagnostics, d.kind ≠ kind := by
  intro d hd
  unfold Sink.diagnostics noteLastError at hd
  split at hd
  · split at hd
    · obtain ⟨i, hi, rfl⟩ := List.mem_iff_getElem.mp hd
      have hkept := hs _ (List.getElem_mem (l := s.recorded) (n := i) (by simpa using hi))
      rw [List.getElem_modify]
      split <;> exact hkept
    · exact hs d hd
  · exact hs d hd

end Elementwise.Sink
