import Elementwise.Proofs.Compile.Levels
import Elementwise.Proofs.Perform.Congruence

/-!
# Compiled programs perform what they mean

A program that was compiled without optimisation runs on an element exactly as its tree is performed, with
the same fuel: operands that are locals are read late, and components of a field are replaced in what the
target loaded. With optimisation it still does if no branch of a conditional is itself a declaration.
-/

namespace Elementwise

open Builder

/-- A program enacts a term: its runs take the course of the term, with the same fuel, and the locals are in
registers of their own, those of the layout, in the order of their declarations. -/
structure Program.Enacts (p : Program) (w : World) (t : Term) (L : Layout) : Prop where
  types : L.map Operand.ty = (({} : Names).after t).types
  distinct : L.Distinct
  made : ∀ o ∈ L, p.code.regs[o.reg]? = some o.ty
  accords : ∀ fuel element,
    Accords L p.code.regs.size (p.run fuel element) (Perform.exec .lazy w fuel t {} { element })

namespace Generate

variable {ctx : Context} {scopes : Scopes} {b : Builder}

/-- A program that is made of the code of a term enacts it. -/
theorem Issues.enacts (hstd : ctx.library = .standard) {program : Term} {target : Target} {slots : Nat}
    (h : Issues ctx 0 (.one program) [] { target, slots } scopes b) {p : Program} (hcode : p.code = b.finish) :
    ∃ L, p.Enacts ctx.world program L := by
  obtain ⟨code, hadds⟩ := h.grows hstd
  obtain ⟨ext, hspans, htracks, hruns⟩ := h.performed hstd {} [] ⟨rfl, .nil, nofun⟩
  have hregs : p.code.regs = b.regs := by rw [hcode, Builder.finish]
  refine ⟨ext, htracks.cells.symm, hspans.distinct, fun o ho => ?_, fun fuel element => ?_⟩
  · rw [hregs]
    exact (hspans.made o ho).2
  · have hmirrors : Mirrors ext { element } (p.start element) := by
      refine ⟨fun i o ho => ?_, rfl, rfl⟩
      have htype := (hspans.made o (List.mem_of_getElem? ho)).2
      simp [Program.start, hregs, htype, Store.cell]
    have hrun : p.run fuel element = Instr.runAll b.regs fuel code (p.start element) := by
      rw [Program.run, hregs, hcode, hadds.finish.1]
    rw [hrun, hregs]
    exact hruns ext ⟨hspans.distinct, [], by simp, nofun⟩ b.regs fuel (p.start element) { element } hmirrors code hadds
      (fun _ _ h => h) (by simp [Program.start, hregs])

end Generate

namespace Accords

variable {L : Layout} {size : Nat} {out : Outcome Flow} {c : Course}

/-- Both come to the same end, if they come to one. -/
theorem ending?_eq (h : Accords L size out c) : out.ending? = c.ending? := by
  cases h with
  | done _ hmirrors | fault hmirrors => simp only [Outcome.ending?, Course.ending?, hmirrors.element, hmirrors.calls]
  | exhausted => rfl

/-- A course that code takes has a meaning. -/
theorem ne_stuck (h : Accords L size out c) : c ≠ .stuck := by
  rintro rfl
  cases h

end Accords

namespace Tree

variable {t : Tree} {map : SourceMap} {target : Target} {options : CompileOptions} {e : Executable}

/-- A compiled program comes to the end that its tree is performed to, and nowhere is the tree without a
meaning. -/
theorem endsWith_iff_performsTo (h : t.compile map target options = .ok e) (hlibrary : options.library = .standard)
    (hlevel : options.level = .none ∨ t.program.Everywhere Node.Scoped) (state : ElementState) :
    (∀ fuel, Perform.exec .lazy ⟨e.registry, options.custom⟩ fuel t.program {} { element := state } ≠ .stuck) ∧
    ∀ ending, e.program.EndsWith state ending ↔
      t.program.PerformsTo .lazy ⟨e.registry, options.custom⟩ state ending := by
  obtain ⟨hnumbered, program, spanOf, scopes, b, hlowers, hissues, hcompile, -⟩ := compile_eq_ok h
  rw [hlibrary] at hissues
  obtain ⟨-, hsound⟩ := issued_sound hnumbered hlowers hissues
  have hverify : b.finish.verify = .ok () := hissues.verified rfl hnumbered
  let plain : Program := ⟨b.finish, hverify⟩
  have hplain (ending : Ending) : e.program.EndsWith state ending ↔ plain.EndsWith state ending := by
    rcases hlevel with hnone | hscoped
    · rw [hnone, Code.optimize_none, Code.compile_eq_ok hverify] at hcompile
      rw [← Except.ok.inj hcompile]
    · obtain ⟨W', hsound⟩ := hsound False nofun nofun ∅ (.inr hscoped)
      have hreads (fuel : Nat) : ReadsWritten [] (plain.steps fuel state) := hsound.readsWritten plain.code.regs fuel _
      obtain ⟨q, hq, hending⟩ := (Code.optimize_standsFor options.level b.finish).exists_program (p := plain)
      rw [← Except.ok.inj (hq.symm.trans hcompile)]
      simp only [Program.EndsWith, hending state _ (hreads _)]
  obtain ⟨L, henacts⟩ := hissues.enacts rfl (show plain.code = b.finish from rfl)
  have haccords (fuel : Nat) : Accords L plain.code.regs.size (plain.run fuel state)
      (Perform.exec .lazy ⟨e.registry, options.custom⟩ fuel t.program {} { element := state }) := by
    rw [← hlowers.exec_eq]
    exact henacts.accords fuel state
  refine ⟨fun fuel => (haccords fuel).ne_stuck, fun ending => (hplain ending).trans (exists_congr fun fuel => ?_)⟩
  rw [(haccords fuel).ending?_eq]

end Tree

end Elementwise
