import Elementwise.Proofs.Compile.Levels

/-!
# Generated code is accepted

Code that is generated with the standard library and without an error passes verification, as it is and
at every level of optimisation. So a compilation succeeds exactly if the stages before the backend report
no error, and nothing that it reports is about the backend.
-/

namespace Elementwise.Tree

variable {t : Tree} {map : SourceMap} {target : Target} {options : CompileOptions}

/-- Code that was generated without an error passes verification. -/
theorem verify_frontEnd (hlibrary : options.library = .standard)
    (h : (t.frontEnd map target options).sink.hasFatal = false) :
    (t.frontEnd map target options).code.verify = .ok () := by
  obtain ⟨hnumbered, program, spanOf, scopes, b, -, hissues, hcode⟩ := frontEnd_issues h
  rw [hlibrary] at hissues
  rw [hcode]
  exact hissues.verified rfl hnumbered

/-- It still does once it is optimised. -/
theorem verify_optimize_frontEnd (hlibrary : options.library = .standard)
    (h : (t.frontEnd map target options).sink.hasFatal = false) (level : OptLevel) :
    ((t.frontEnd map target options).code.optimize level).verify = .ok () :=
  (Code.optimize_standsFor level _).verified (verify_frontEnd hlibrary h)

/-- What a compilation reports. -/
def reported : Except CompileFailure Executable → List Diagnostic
  | .ok e => e.warnings
  | .error failure => failure.diagnostics

/-- Diagnostics gathered before the backend are not about it. -/
theorem not_backend_of_gathers {sink : Sink} (h : Sink.Gathers (·.kind ≠ .backend) (startSink options) sink) :
    ∀ d ∈ sink.diagnostics, d.kind ≠ .backend := by
  have hstart : (startSink options).Lacks .backend := nofun
  exact (hstart.gathers h).diagnostics

/-- An error before the backend stops a compilation there, with nothing reported about the backend. -/
theorem compile_of_error (h : (t.frontEnd map target options).sink.hasFatal = true) :
    ∃ failure, t.compile map target options = .error failure ∧ failure.stage ≠ some .generated ∧
      ∀ d ∈ failure.diagnostics, d.kind ≠ .backend := by
  obtain ⟨hlowered, hregistered, hgenerated⟩ := @gathers_stages t map target options
  rw [compile_eq]
  split
  · exact ⟨_, rfl, nofun, not_backend_of_gathers hlowered⟩
  · split
    · exact ⟨_, rfl, nofun, not_backend_of_gathers (hlowered.trans hregistered)⟩
    · exact ⟨_, rfl, nofun, not_backend_of_gathers ((hlowered.trans hregistered).trans hgenerated)⟩

/-- The backend never rejects generated code: if the stages before it report no error, the code passes
verification as it is and at every level of optimisation, and every level compiles to the optimised code; if
they report one, the compilation stops before the backend. Nothing that is reported is about the backend. -/
theorem generated_code_accepted (t : Tree) (map : SourceMap) (target : Target) (options : CompileOptions)
    (hlibrary : options.library = .standard) :
    ((t.frontEnd map target options).sink.hasFatal = false →
      (t.frontEnd map target options).code.verify = .ok () ∧
      ∀ level, ((t.frontEnd map target options).code.optimize level).verify = .ok () ∧
        ∃ e, t.compile map target { options with level } = .ok e ∧
          e.registry = (t.frontEnd map target options).registry ∧
          e.program.code = (t.frontEnd map target options).code.optimize level) ∧
    ((t.frontEnd map target options).sink.hasFatal = true →
      ∃ failure, t.compile map target options = .error failure ∧ failure.stage ≠ some .generated) ∧
    ∀ d ∈ reported (t.compile map target options), d.kind ≠ .backend := by
  refine ⟨fun h => ⟨verify_frontEnd hlibrary h, fun level => ?_⟩, fun h => ?_, ?_⟩
  · have hverify := verify_optimize_frontEnd hlibrary h level
    exact ⟨hverify, _, compile_of_noError h (Code.compile_eq_ok hverify), rfl, rfl⟩
  · obtain ⟨failure, hfailure, hstage, -⟩ := compile_of_error h
    exact ⟨failure, hfailure, hstage⟩
  · cases h : (t.frontEnd map target options).sink.hasFatal with
    | false =>
      obtain ⟨hlowered, hregistered, hgenerated⟩ := @gathers_stages t map target options
      have hverify := verify_optimize_frontEnd hlibrary h options.level
      rw [show options = { options with level := options.level } from rfl,
        compile_of_noError h (Code.compile_eq_ok hverify)]
      exact not_backend_of_gathers ((hlowered.trans hregistered).trans hgenerated)
    | true =>
      obtain ⟨failure, hfailure, -, hkinds⟩ := compile_of_error h
      rw [hfailure]
      exact hkinds

/-- The code of the running sum is accepted, with all optimisations and without. -/
theorem generated_code_accepted_runningSum :
    (runningSum.frontEnd (.empty runningSum) .points {}).sink.hasFatal = false ∧
      (runningSum.frontEnd (.empty runningSum) .points {}).code.verify = .ok () ∧
      ((runningSum.frontEnd (.empty runningSum) .points {}).code.optimize .full).verify = .ok () := by
  have hfatal : (runningSum.frontEnd (.empty runningSum) .points {}).sink.hasFatal = false := by decide +kernel
  obtain ⟨haccepted, -, -⟩ := generated_code_accepted runningSum (.empty runningSum) .points {} rfl
  exact ⟨hfatal, (haccepted hfatal).1, ((haccepted hfatal).2 .full).1⟩

end Elementwise.Tree
