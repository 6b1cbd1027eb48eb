import Elementwise.Compile.Basic
import Elementwise.Proofs.Compile.Lowering
import Elementwise.Proofs.Generate.Ensures

/-!
# What a compilation went through

A compilation lowers its tree, registers its fields and issues its code by the rules of generation, before
it optimises and verifies. The stages up to there report nothing about the backend. If one of them reports
an error, the compilation stops there; if none does, only the last two steps look at the level of
optimisation.
-/

namespace Elementwise

/-- Replacing lookups reports nothing about the backend. -/
theorem Lowering.gathers_run (tree : Tree) (map : SourceMap) (sink : Sink) :
    Sink.Gathers (·.kind ≠ .backend) sink (run tree map sink).sink := by
  refine Sink.Gathers.foldl Lowering.sink (fun l call => ?_) { tree, map, sink } tree.externalCalls
  have hreport (l : Lowering) (message : String) (help : Option String) :
      Sink.Gathers (·.kind ≠ .backend) l.sink (l.report call.id message help).sink :=
    .push (d := { Diagnostic.error .semantic message (l.map.lookup l.tree call.id) with help }) nofun
  unfold step
  split
  · exact hreport _ _ _
  · dsimp only
    split
    · exact .refl _
    · exact hreport _ _ _

/-- Registering fields reports nothing about the backend. -/
theorem Registry.gathers_build (t : Tree) (target : Target) (map : SourceMap) (sink : Sink) :
    Sink.Gathers (·.kind ≠ .backend) sink (build t target map sink).2 := by
  rw [build_eq]
  refine Sink.Gathers.foldl Prod.snd (fun state u => ?_) (_, sink) (t.program.fieldUses false)
  unfold addUse
  dsimp only
  split
  · exact .push (d := u.notAGrid _) nofun
  · split
    · exact .refl _
    · refine .push ?_
      unfold FieldUse.conflict
      dsimp only
      split <;> nofun

/-- What the stages before the backend make of a tree: its fields, its code, and what was reported. -/
structure FrontEnd where
  registry : Registry
  code : Code
  sink : Sink

namespace Tree

open Generate

variable {t : Tree} {map : SourceMap} {target : Target} {options : CompileOptions} {e : Executable}

/-- The sink that a compilation starts from. -/
def startSink (options : CompileOptions) : Sink := { maxErrors := options.maxErrors, promote := options.promote }

/-- A tree with its lookups replaced, whatever that reports. -/
@[irreducible]
def lowered (t : Tree) (map : SourceMap) (options : CompileOptions) : Lowering :=
  Lowering.run (t.copy (t.id + 1)) (map.rebase (t.copy (t.id + 1))) (startSink options)

/-- The fields of a tree, whatever is reported about them. -/
@[irreducible]
def registered (t : Tree) (map : SourceMap) (target : Target) (options : CompileOptions) : Registry × Sink :=
  Registry.build (t.lowered map options).tree target (t.lowered map options).map (t.lowered map options).sink

/-- What the code of a tree is generated with. -/
def context (t : Tree) (map : SourceMap) (target : Target) (options : CompileOptions) : Context where
  registry := (t.registered map target options).1
  library := options.library
  custom := options.custom
  spanOf := (t.lowered map options).map.lookup (t.lowered map options).tree

/-- Lowering, registration and generation one after another, whatever they report. -/
@[irreducible]
def frontEnd (t : Tree) (map : SourceMap) (target : Target) (options : CompileOptions) : FrontEnd :=
  let generated := Code.generate (t.context map target options) (t.lowered map options).tree.program
    (t.registered map target options).2
  ⟨(t.registered map target options).1, generated.1, generated.2⟩

/-- The stages before the backend look at no level of optimisation. -/
theorem frontEnd_level (level : OptLevel) :
    t.frontEnd map target { options with level } = t.frontEnd map target options := by
  simp only [frontEnd, registered, lowered, context, startSink]

/-- A compilation stops after the first stage that reports an error. -/
theorem compile_eq : t.compile map target options =
    if (t.lowered map options).sink.hasFatal then abort .parsed (t.lowered map options).sink
    else if (t.registered map target options).2.hasFatal then abort .parsed (t.registered map target options).2
    else if (t.frontEnd map target options).sink.hasFatal then abort .registered (t.frontEnd map target options).sink
    else match ((t.frontEnd map target options).code.optimize options.level).compile with
      | .ok program => .ok ⟨(t.frontEnd map target options).registry, program,
          (t.frontEnd map target options).sink.diagnostics⟩
      | .error e => abort .generated ((t.frontEnd map target options).sink.push (.error .backend e.message none)) := by
  have hlowered : Lowering.run (t.copy (t.id + 1)) (map.rebase (t.copy (t.id + 1)))
      { maxErrors := options.maxErrors, promote := options.promote } = t.lowered map options := by
    rw [lowered, startSink]
  have hregistered : Registry.build (t.lowered map options).tree target (t.lowered map options).map
      (t.lowered map options).sink = t.registered map target options := by
    rw [registered]
  unfold compile compileRegistered
  dsimp only
  rw [hlowered, hregistered]
  unfold frontEnd context
  rfl

/-- The stages before the backend report nothing about it, and take no error back. -/
theorem gathers_stages :
    Sink.Gathers (·.kind ≠ .backend) (startSink options) (t.lowered map options).sink ∧
      Sink.Gathers (·.kind ≠ .backend) (t.lowered map options).sink (t.registered map target options).2 ∧
      Sink.Gathers (·.kind ≠ .backend) (t.registered map target options).2 (t.frontEnd map target options).sink := by
  refine ⟨?_, ?_, ?_⟩
  · rw [lowered]
    exact Lowering.gathers_run _ _ _
  · rw [registered]
    exact Registry.gathers_build _ _ _ _
  · rw [frontEnd]
    exact Code.gathers_generate _ _ _

/-- If the stages before the backend report no error, none of them did. -/
theorem noError_stages (h : (t.frontEnd map target options).sink.hasFatal = false) :
    (t.lowered map options).sink.hasFatal = false ∧ (t.registered map target options).2.hasFatal = false := by
  obtain ⟨-, hregistered, hgenerated⟩ := @gathers_stages t map target options
  rw [Sink.hasFatal_eq_false] at h ⊢
  rw [Sink.hasFatal_eq_false]
  have hle := hregistered.errors_le
  have hle' := hgenerated.errors_le
  omega

/-- If the stages before the backend report no error, each entry stands in its slot, the program was lowered,
and the code was issued by the rules of generation. -/
theorem frontEnd_issues (h : (t.frontEnd map target options).sink.hasFatal = false) :
    (t.frontEnd map target options).registry.Numbered ∧ ∃ program spanOf scopes b, Lowers t.program program ∧
      Issues ⟨(t.frontEnd map target options).registry, options.library, options.custom, spanOf⟩ 0 (.one program) []
        { target := (t.frontEnd map target options).registry.target,
          slots := (t.frontEnd map target options).registry.size } scopes b ∧
      (t.frontEnd map target options).code = b.finish := by
  obtain ⟨hlowered, hregistered⟩ := noError_stages h
  rw [Sink.hasFatal_eq_false] at h hlowered hregistered
  have hlowers : Lowers t.program (t.lowered map options).tree.program := by
    rw [lowered] at hlowered ⊢
    exact Lowering.lowers_run hlowered
  have hnumbered : (t.registered map target options).1.Numbered := by
    rw [registered]
    exact (Registry.build_keeps _ _ _ _).1
  rw [frontEnd] at h ⊢
  obtain ⟨scopes, b, hissues, hcode⟩ := Code.issues_of_generate hlowers.complete (h.trans hregistered.symm)
  exact ⟨hnumbered, _, _, scopes, b, hlowers, hissues, hcode⟩

/-- If the stages before the backend report no error, a compilation depends on the optimised code alone. -/
theorem compile_of_noError (h : (t.frontEnd map target options).sink.hasFatal = false) {level : OptLevel} {p : Program}
    (hp : ((t.frontEnd map target options).code.optimize level).compile = .ok p) :
    t.compile map target { options with level } =
      .ok ⟨(t.frontEnd map target options).registry, p, (t.frontEnd map target options).sink.diagnostics⟩ := by
  have h' : (t.frontEnd map target { options with level }).sink.hasFatal = false := by rwa [frontEnd_level]
  obtain ⟨hlowered, hregistered⟩ := noError_stages h'
  rw [compile_eq, hlowered, hregistered, h', frontEnd_level, hp]
  rfl

/-- A compilation that ends in code had no error before the backend, and its code passed there. -/
theorem noError_of_compile (h : t.compile map target options = .ok e) :
    (t.frontEnd map target options).sink.hasFatal = false ∧
      e.registry = (t.frontEnd map target options).registry ∧
      e.warnings = (t.frontEnd map target options).sink.diagnostics ∧
      ((t.frontEnd map target options).code.optimize options.level).compile = .ok e.program := by
  rw [compile_eq] at h
  split at h
  · cases h
  · split at h
    · cases h
    · split at h
      · cases h
      · next hfatal =>
        split at h
        · next p hp =>
          obtain rfl := Except.ok.inj h
          exact ⟨by simpa using hfatal, rfl, rfl, hp⟩
        · cases h

/-- A compilation that succeeds: the program was lowered and issued as code, which passes verification
once it is optimised; at another level, only the program that is made of this code differs. -/
theorem compile_eq_ok (h : t.compile map target options = .ok e) :
    e.registry.Numbered ∧ ∃ program spanOf scopes b, Lowers t.program program ∧
      Issues ⟨e.registry, options.library, options.custom, spanOf⟩ 0 (.one program) []
        { target := e.registry.target, slots := e.registry.size } scopes b ∧
      (b.finish.optimize options.level).compile = .ok e.program ∧
      ∀ level p, (b.finish.optimize level).compile = .ok p →
        t.compile map target { options with level } = .ok { e with program := p } := by
  obtain ⟨hfatal, hregistry, hwarnings, hcompile⟩ := noError_of_compile h
  obtain ⟨hnumbered, program, spanOf, scopes, b, hlowers, hissues, hcode⟩ := frontEnd_issues hfatal
  rw [← hregistry] at hnumbered hissues
  rw [hcode] at hcompile
  refine ⟨hnumbered, program, spanOf, scopes, b, hlowers, hissues, hcompile, fun level p hp => ?_⟩
  rw [compile_of_noError hfatal (hcode ▸ hp), hregistry, hwarnings]

end Tree

end Elementwise
