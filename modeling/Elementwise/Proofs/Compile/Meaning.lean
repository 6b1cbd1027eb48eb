import Elementwise.Proofs.Compile.Performs
import Elementwise.Proofs.Perform.Evaluation

/-!
# Compiled programs mean what their trees mean

Where assignments and steps stand only as statements, and no branch of a conditional is itself a
declaration, a compiled program comes to an end on an element exactly if the direct evaluation of its tree
does, with the same slots, the same written slots and the same native calls.
-/

namespace Elementwise

namespace Tree

variable {t : Tree} {map : SourceMap} {target : Target} {options : CompileOptions} {e : Executable}

/-- The evaluation of a tree that was compiled always has a meaning, and the compiled program comes to exactly
the end that the evaluation comes to. -/
theorem compile_preserves_meaning (h : t.compile map target options = .ok e) (hlibrary : options.library = .standard)
    (hscoped : t.program.Everywhere Node.Scoped) (hcalm : t.program.Everywhere Node.Calm) (state : ElementState) :
    (∀ fuel, Evaluate.exec ⟨e.registry, options.custom⟩ fuel t.program { element := state } ≠ .stuck) ∧
    ∀ ending, e.program.EndsWith state ending ↔ t.program.EvaluatesTo ⟨e.registry, options.custom⟩ state ending := by
  obtain ⟨hmeaning, hends⟩ := endsWith_iff_performsTo h hlibrary (.inr hscoped) state
  have hshows (fuel : Nat) := Perform.shows_program ⟨e.registry, options.custom⟩ fuel t.program hcalm hscoped state
  refine ⟨fun fuel hstuck => hmeaning fuel ?_, fun ending => (hends ending).trans (exists_congr fun fuel => ?_)⟩
  · have hcourse := hshows fuel
    rw [hstuck] at hcourse
    generalize Perform.exec _ _ _ _ _ _ = c at hcourse ⊢
    cases hcourse
    rfl
  · rw [(hshows fuel).ending?_eq]

/-- The running sum comes to the ends that its evaluation comes to. -/
theorem compile_preserves_meaning_runningSum :
    ∃ e, runningSum.compile (.empty runningSum) .points {} = .ok e ∧
      runningSum.program.Everywhere Node.Scoped ∧ runningSum.program.Everywhere Node.Calm ∧
      ∀ state ending, e.program.EndsWith state ending ↔ runningSum.program.EvaluatesTo ⟨e.registry, {}⟩ state ending := by
  have hscoped : runningSum.program.Everywhere Node.Scoped := by
    rw [runningSum_program]
    simp [Term.Everywhere.iff_children, Node.children, Node.Scoped, Node.branches]
  have hcalm : runningSum.program.Everywhere Node.Calm := by
    rw [runningSum_program]
    simp [Term.Everywhere.iff_children, Node.children, Node.Calm, Node.operands, Term.isChange]
  have hok : (runningSum.compile (.empty runningSum) .points {}).isOk = true := by decide +kernel
  obtain ⟨e, h⟩ := exists_ok_of_isOk hok
  exact ⟨e, h, hscoped, hcalm, fun state => (compile_preserves_meaning h rfl hscoped hcalm state).2⟩

end Tree

end Elementwise
