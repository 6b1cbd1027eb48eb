import Elementwise.Proofs.Compile.Sound
import Elementwise.Proofs.Optimize.Preservation

/-!
# Levels of optimisation

A program that compiles at one level compiles at all of them, from the same code. The programs end in the
same way on every element where the code that is not optimised reads only what it wrote, and so on every
element if no branch of a conditional is itself a declaration. Such a branch leaves its local in scope
where it was not taken; there, folding turns the zero of the local into its initial value.
-/

namespace Elementwise

/-- Code that is not optimised stays as it is. -/
theorem Code.optimize_none (c : Code) : c.optimize .none = c := rfl

namespace Tree

variable {t : Tree} {map : SourceMap} {target : Target} {options : CompileOptions} {e : Executable}

/-- What compiles at one level compiles at every other, with the same fields and warnings. The two programs
end in the same way on every element on which the program that is not optimised reads no register before
writing it; if no branch of a conditional is itself a declaration, these are all elements. -/
theorem compile_levels_agree (h : t.compile map target options = .ok e) (hlibrary : options.library = .standard)
    (level : OptLevel) :
    ∃ e' plain, t.compile map target { options with level } = .ok e' ∧
      t.compile map target { options with level := .none } = .ok plain ∧
      e'.registry = e.registry ∧ e'.warnings = e.warnings ∧
      ∀ state, (t.program.Everywhere Node.Scoped ∨ ∀ fuel, ReadsWritten [] (plain.program.steps fuel state)) →
        ∀ ending, e'.program.EndsWith state ending ↔ e.program.EndsWith state ending := by
  obtain ⟨code, hslots, hcompile, hlevels, hsound⟩ := compile_sound h hlibrary
  have hverify : code.verify = .ok () := by
    obtain ⟨W', hsound⟩ := hsound False nofun nofun Set.univ (.inl Set.mem_univ)
    have hcheck : Instr.checkAll _ false code.body = .ok () := hsound.checkAll (by simp)
    rwa [Registry.length_slotTypes, ← hslots] at hcheck
  let p : Program := ⟨code, hverify⟩
  have hplain : (code.optimize .none).compile = .ok p := by rw [code.optimize_none, Code.compile_eq_ok hverify]
  obtain ⟨q, hq, hending⟩ := (Code.optimize_standsFor level code).exists_program (p := p)
  obtain ⟨q', hq', hending'⟩ := (Code.optimize_standsFor options.level code).exists_program (p := p)
  obtain rfl : q' = e.program := Except.ok.inj (hq'.symm.trans hcompile)
  refine ⟨{ e with program := q }, { e with program := p }, hlevels level q hq, hlevels .none p hplain, rfl, rfl, ?_⟩
  intro state hreads ending
  have hwritten (fuel : Nat) : ReadsWritten [] (p.steps fuel state) := by
    rcases hreads with hscoped | hreads
    · obtain ⟨W', hsound⟩ := hsound False nofun nofun ∅ (.inr hscoped)
      exact hsound.readsWritten p.code.regs fuel _
    · exact hreads fuel
  simp only [Program.EndsWith, hending state _ (hwritten _), hending' state _ (hwritten _)]

/-- The running sum ends in the same way with all optimisations and without. -/
theorem compile_levels_agree_runningSum :
    ∃ e e', runningSum.compile (.empty runningSum) .points {} = .ok e ∧
      runningSum.compile (.empty runningSum) .points { level := .full } = .ok e' ∧
      runningSum.program.Everywhere Node.Scoped ∧
      ∀ state ending, e'.program.EndsWith state ending ↔ e.program.EndsWith state ending := by
  have hscoped : runningSum.program.Everywhere Node.Scoped := by
    rw [runningSum_program]
    simp [Term.Everywhere.iff_children, Node.children, Node.Scoped, Node.branches]
  have hok : (runningSum.compile (.empty runningSum) .points {}).isOk = true := by decide +kernel
  obtain ⟨e, h⟩ := exists_ok_of_isOk hok
  obtain ⟨e', plain, hfull, -, -, -, hagree⟩ := compile_levels_agree h rfl .full
  exact ⟨e, e', h, hfull, hscoped, fun state => hagree state (.inl hscoped)⟩

/-- `if (@c) int32 x = 5; @a = x + 1;`, where the local outlives the branch that declares it. -/
def leakedLocal : Tree where
  id := 0
  slots := #[
    some ⟨.block [5, 11], none⟩,
    some ⟨.field "c" .int32 false false, some 5⟩,
    some ⟨.localName "x", some 4⟩,
    some ⟨.value (.int32 5), some 4⟩,
    some ⟨.declare .int32 2 (some 3), some 5⟩,
    some ⟨.conditional 1 4 6, some 0⟩,
    some ⟨.block [], some 5⟩,
    some ⟨.field "a" .int32 false true, some 11⟩,
    some ⟨.localName "x", some 10⟩,
    some ⟨.value (.int32 1), some 10⟩,
    some ⟨.binary .add 8 9, some 11⟩,
    some ⟨.assign 7 10 none, some 0⟩]
  root := 0

/-- Where the branch is not taken, the local reads as zero, and as its initial value once it is folded. -/
theorem leakedLocal_levels_differ :
    ∃ plain folded ending, leakedLocal.compile (.empty leakedLocal) .points { level := .none } = .ok plain ∧
      leakedLocal.compile (.empty leakedLocal) .points { level := .fold } = .ok folded ∧
      plain.program.EndsWith (.start #[.int32 0, .int32 0] none) ending ∧
      ¬folded.program.EndsWith (.start #[.int32 0, .int32 0] none) ending := by
  have hseen (level : OptLevel) (text : String)
      (h : (leakedLocal.compile (.empty leakedLocal) .points { level }).toOption.map (fun e =>
        Ending.seen? ElementState.texts (e.program.run 0 (.start #[.int32 0, .int32 0] none)).ending?) =
          some (some ["0", text])) :
      ∃ e ending, leakedLocal.compile (.empty leakedLocal) .points { level } = .ok e ∧
        e.program.EndsWith (.start #[.int32 0, .int32 0] none) ending ∧ ending.element.texts = ["0", text] := by
    obtain ⟨e, hcompile, hrun⟩ := exists_ok_of_map h
    obtain ⟨s, calls, hends, htexts⟩ := Ending.exists_of_seen? hrun
    exact ⟨e, _, hcompile, ⟨0, hends⟩, htexts⟩
  obtain ⟨plain, ending, hcompile, hends, htexts⟩ := hseen .none "1" (by decide +kernel)
  obtain ⟨folded, ending', hcompile', hends', htexts'⟩ := hseen .fold "6" (by decide +kernel)
  refine ⟨plain, folded, ending, hcompile, hcompile', hends, fun hsame => ?_⟩
  rw [hsame.unique hends', htexts'] at htexts
  exact absurd htexts (by decide)

end Tree

end Elementwise
