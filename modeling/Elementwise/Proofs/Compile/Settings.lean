import Elementwise.Proofs.Compile.Inversion

/-!
# Settings of diagnostics do not change compilation

A limit on errors and the promotion of warnings are settings of the sink. No stage of a compilation looks at the
sink, so every stage does the same under all settings, and reports the same diagnostics. The limit leaves out some
of what is recorded and nothing of what is counted; promotion makes errors of the warnings, so that only a
compilation without warnings succeeds.
-/

namespace Elementwise

/-- Steps of a fold that add to a sink and do not look at it. -/
theorem Sink.exists_foldl {σ β : Type} {f : σ → β → σ} (put : σ → Sink → σ)
    (hf : ∀ a b, ∃ ds, ∀ sink, f (put a sink) b = put (f a b) (sink.extend ds)) (a : σ) (bs : List β) :
    ∃ ds, ∀ sink, bs.foldl f (put a sink) = put (bs.foldl f a) (sink.extend ds) := by
  induction bs generalizing a with
  | nil => exact ⟨[], fun _ => rfl⟩
  | cons b bs ih =>
    obtain ⟨ds, hds⟩ := hf a b
    obtain ⟨ds', hds'⟩ := ih (f a b)
    refine ⟨ds ++ ds', fun sink => ?_⟩
    rw [List.foldl_cons, List.foldl_cons, hds, hds', Sink.extend_extend]

/-- Replacing a lookup does not look at the sink. -/
theorem Lowering.exists_step (l : Lowering) (call : ExternalCall) :
    ∃ ds, ∀ sink, step { l with sink } call = { step l call with sink := sink.extend ds } := by
  have hreport (l : Lowering) (message : String) (help : Option String) :
      ∃ ds, ∀ sink, { l with sink }.report call.id message help =
        { l.report call.id message help with sink := sink.extend ds } :=
    ⟨[{ Diagnostic.error .semantic message (l.map.lookup l.tree call.id) with help }], fun _ => rfl⟩
  unfold step
  cases call.name with
  | none => exact hreport l _ _
  | some name =>
    dsimp only
    split
    · exact ⟨[], fun _ => rfl⟩
    · exact hreport { l with tree := (l.tree.alloc (.external name call.ty)).2 } _ _

/-- Replacing lookups does not look at the sink. -/
theorem Lowering.exists_run (tree : Tree) (map : SourceMap) :
    ∃ (l : Lowering) (ds : List Diagnostic), ∀ sink, run tree map sink = { l with sink := sink.extend ds } :=
  ⟨_, Sink.exists_foldl (fun (l : Lowering) sink => { l with sink }) exists_step { tree, map, sink := {} }
    tree.externalCalls⟩

/-- Recording a use does not look at the sink. -/
theorem Registry.exists_addUse (spanOf : NodeId → Option Span) (state : Registry × Sink) (u : FieldUse) :
    ∃ ds, ∀ sink, addUse spanOf (state.1, sink) u = ((addUse spanOf state u).1, sink.extend ds) := by
  unfold addUse
  dsimp only
  split
  · exact ⟨[u.notAGrid (spanOf u.id)], fun _ => rfl⟩
  · split
    · exact ⟨[], fun _ => rfl⟩
    · next first registry _ => exact ⟨[u.conflict registry.target first (spanOf u.id)], fun _ => rfl⟩

/-- Registering fields does not look at the sink. -/
theorem Registry.exists_build (t : Tree) (target : Target) (map : SourceMap) :
    ∃ registry ds, ∀ sink, build t target map sink = (registry, sink.extend ds) := by
  simp only [build_eq]
  exact ⟨_, Sink.exists_foldl (fun (state : Registry × Sink) sink => (state.1, sink)) (exists_addUse (map.lookup t))
    ({ target }, {}) (t.program.fieldUses false)⟩

/-- A failure as it is shown under a limit of `n` errors. -/
def CompileFailure.limited (n : Nat) (failure : CompileFailure) : CompileFailure :=
  { failure with diagnostics := Diagnostic.limited n failure.diagnostics }

/-- What the stages of a compilation before the backend do, whatever the sink is: the fields, the code, and what
each of them reports. -/
structure Stages where
  registry : Registry
  code : Code
  lowering : List Diagnostic
  registration : List Diagnostic
  generation : List Diagnostic

namespace Stages

variable {s : Stages} {options : CompileOptions} {e : Executable}

/-- Everything that the stages report. -/
def reported (s : Stages) : List Diagnostic := s.lowering ++ s.registration ++ s.generation

/-- How a compilation with these stages ends. -/
def finish (s : Stages) (options : CompileOptions) : Except CompileFailure Executable :=
  let sink (ds : List Diagnostic) : Sink := (Tree.startSink options).extend ds
  if (sink s.lowering).hasFatal then Tree.abort .parsed (sink s.lowering)
  else if (sink (s.lowering ++ s.registration)).hasFatal then Tree.abort .parsed (sink (s.lowering ++ s.registration))
  else if (sink s.reported).hasFatal then Tree.abort .registered (sink s.reported)
  else match (s.code.optimize options.level).compile with
    | .ok program => .ok ⟨s.registry, program, (sink s.reported).diagnostics⟩
    | .error e => Tree.abort .generated (sink (s.reported ++ [.error .backend e.message none]))

/-- Whether a compilation has seen an error is a matter of what was reported. -/
theorem hasFatal_startSink (options : CompileOptions) (ds : List Diagnostic) :
    ((Tree.startSink options).extend ds).hasFatal = decide (0 < Sink.errorCount options.promote ds) := by
  rw [Sink.hasFatal, Tree.startSink, Sink.errors_start]

/-- A compilation with these stages succeeds if nothing that was reported counts as an error, and the backend
takes the code. -/
theorem finish_eq_ok : s.finish options = .ok e ↔ Sink.errorCount options.promote s.reported = 0 ∧
    (s.code.optimize options.level).compile = .ok e.program ∧ e.registry = s.registry ∧
      e.warnings = Sink.seen options.promote s.reported := by
  have hreported : Sink.errorCount options.promote s.reported =
      Sink.errorCount options.promote (s.lowering ++ s.registration) + Sink.errorCount options.promote s.generation :=
    Sink.errorCount_append _ _ _
  have hregistered := Sink.errorCount_append s.lowering options.promote s.registration
  unfold finish
  simp only [hasFatal_startSink, decide_eq_true_eq]
  by_cases hnone : Sink.errorCount options.promote s.reported = 0
  · rw [if_neg (by omega), if_neg (by omega), if_neg (by omega), Tree.startSink,
      Sink.diagnostics_start_of_noError _ _ _ hnone]
    cases (s.code.optimize options.level).compile with
    | error e => simp [Tree.abort]
    | ok program =>
      constructor
      · rintro ⟨⟩
        exact ⟨hnone, rfl, rfl, rfl⟩
      · rintro ⟨-, ⟨⟩, hregistry, hwarnings⟩
        rw [← hregistry, ← hwarnings]
  · have hfatal : 0 < Sink.errorCount options.promote s.reported := Nat.pos_of_ne_zero hnone
    split
    · simp [Tree.abort, hnone]
    · split <;> simp [Tree.abort, hnone]

/-- Under a limit, a compilation with these stages ends in the same way, with a failure that shows less. -/
theorem finish_limited (s : Stages) (options : CompileOptions) (n : Nat) :
    s.finish { options with maxErrors := some n } =
      (s.finish { options with maxErrors := none }).mapError (CompileFailure.limited n) := by
  have hdiagnostics (ds : List Diagnostic) :
      ((Tree.startSink { options with maxErrors := some n }).extend ds).diagnostics =
        Diagnostic.limited n ((Tree.startSink { options with maxErrors := none }).extend ds).diagnostics := by
    simp only [Tree.startSink, Sink.diagnostics_start_none, Sink.diagnostics_start_some]
  have habort (stage : Stage) (ds : List Diagnostic) :
      Tree.abort stage ((Tree.startSink { options with maxErrors := some n }).extend ds) =
        (Tree.abort stage ((Tree.startSink { options with maxErrors := none }).extend ds)).mapError
          (CompileFailure.limited n) := by
    simp only [Tree.abort, Except.mapError, CompileFailure.limited, hdiagnostics]
  unfold finish
  simp only [hasFatal_startSink, habort]
  split
  · rfl
  · split
    · rfl
    · split
      · rfl
      · next hnone =>
        have hzero : Sink.errorCount options.promote s.reported = 0 := by simpa using hnone
        rw [Tree.startSink, Tree.startSink, Sink.diagnostics_start_of_noError _ _ _ hzero,
          Sink.diagnostics_start_of_noError _ _ _ hzero]
        split <;> rfl

end Stages

namespace Tree

/-- The stages of a compilation are the same under all settings of diagnostics. -/
theorem exists_stages (t : Tree) (map : SourceMap) (target : Target) (options : CompileOptions) :
    ∃ s : Stages, ∀ maxErrors promote,
      t.compile map target { options with maxErrors, promote } = s.finish { options with maxErrors, promote } := by
  obtain ⟨l, lowering, hlowering⟩ := Lowering.exists_run (t.copy (t.id + 1)) (map.rebase (t.copy (t.id + 1)))
  obtain ⟨registry, registration, hregistration⟩ := Registry.exists_build l.tree target l.map
  obtain ⟨code, generation, hgeneration⟩ := Code.exists_generate
    ⟨registry, options.library, options.custom, l.map.lookup l.tree⟩ l.tree.program
  refine ⟨⟨registry, code, lowering, registration, generation⟩, fun maxErrors promote => ?_⟩
  unfold compile compileRegistered Stages.finish startSink
  simp only [hlowering, hregistration, hgeneration, Sink.extend_extend, Sink.push_extend]
  rfl

/-- Settings of diagnostics do not change compilation. With a limit of `n` errors a compilation ends as it does
without one, in the same executable or at the same stage; a failure has the same diagnostics in the same order, but
for the errors after the first `n` and for the note that counts them. With warnings as errors it succeeds exactly if
it does without them and gives no warning, and the executable is the same. The warnings of an executable are no
errors. -/
theorem compile_settings (t : Tree) (map : SourceMap) (target : Target) (options : CompileOptions) :
    (∀ n, t.compile map target { options with maxErrors := some n } =
      (t.compile map target { options with maxErrors := none }).mapError (CompileFailure.limited n)) ∧
    (∀ e, t.compile map target { options with promote := true } = .ok e ↔
      t.compile map target { options with promote := false } = .ok e ∧ e.warnings = []) ∧
    ∀ e, t.compile map target options = .ok e → ∀ d ∈ e.warnings, d.severity = .warning := by
  obtain ⟨s, hs⟩ := exists_stages t map target options
  refine ⟨fun n => ?_, fun e => ?_, fun e he d hd => ?_⟩
  · rw [hs (some n) options.promote, hs none options.promote]
    exact s.finish_limited options n
  · rw [hs options.maxErrors true, hs options.maxErrors false, Stages.finish_eq_ok, Stages.finish_eq_ok]
    rw [Sink.errorCount_true, Sink.seen_false, List.length_eq_zero_iff]
    constructor
    · rintro ⟨hnone, hprogram, hregistry, hwarnings⟩
      rw [hnone] at hwarnings ⊢
      exact ⟨⟨rfl, hprogram, hregistry, hwarnings⟩, hwarnings⟩
    · rintro ⟨⟨-, hprogram, hregistry, hwarnings⟩, hempty⟩
      have hnone : s.reported = [] := hwarnings.symm.trans hempty
      rw [hnone]
      exact ⟨rfl, hprogram, hregistry, hempty⟩
  · have hfinish : s.finish options = .ok e := (hs options.maxErrors options.promote).symm.trans he
    obtain ⟨hnone, -, -, hwarnings⟩ := Stages.finish_eq_ok.mp hfinish
    rw [hwarnings] at hd
    have hd' : ¬ d.isError = true := List.countP_eq_zero.mp hnone d hd
    cases hseverity : d.severity with
    | warning => rfl
    | error => simp [Diagnostic.isError, hseverity] at hd'

/-- A program that reads two values of the host. -/
def readsTwo : Tree where
  id := 0
  slots := #[some ⟨.block [1, 2], none⟩, some ⟨.external "gain" .float, some 0⟩,
    some ⟨.external "bias" .float, some 0⟩]
  root := 0

/-- Without a host the program compiles with two warnings. With warnings as errors it does not compile, and with a
limit of one error it fails at the same stage with the first of them. -/
theorem compile_settings_readsTwo :
    (∃ e, readsTwo.compile (.empty readsTwo) .points {} = .ok e ∧ e.warnings.length = 2 ∧
      ∀ d ∈ e.warnings, d.severity = .warning) ∧
    (∀ e, readsTwo.compile (.empty readsTwo) .points { promote := true } ≠ .ok e) ∧
    readsTwo.compile (.empty readsTwo) .points { maxErrors := some 1, promote := true } =
      (readsTwo.compile (.empty readsTwo) .points { promote := true }).mapError (CompileFailure.limited 1) := by
  have hseen : (readsTwo.compile (.empty readsTwo) .points {}).toOption.map (·.warnings.length) = some 2 := by
    decide +kernel
  obtain ⟨e, hcompile, hlength⟩ := exists_ok_of_map hseen
  obtain ⟨-, hpromote, hseverity⟩ := compile_settings readsTwo (.empty readsTwo) .points {}
  refine ⟨⟨e, hcompile, hlength, hseverity e hcompile⟩, fun e' he' => ?_, ?_⟩
  · obtain ⟨hcompile', hnone⟩ := (hpromote e').mp he'
    obtain rfl : e = e' := Except.ok.inj (hcompile.symm.trans hcompile')
    simp [hnone] at hlength
  · exact (compile_settings readsTwo (.empty readsTwo) .points { promote := true }).1 1

end Tree

end Elementwise
