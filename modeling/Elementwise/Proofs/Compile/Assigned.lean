import Elementwise.Proofs.Compile.NothingDropped
import Elementwise.Proofs.Compile.Sound

/-!
# Generated code assigns before it reads

In every run of code that was generated without an error, what reads a register comes after what wrote it. This
needs no types: neither the values in the registers nor the slots of the fields matter, so it holds from any
state of the machine and with any registry.
-/

namespace Elementwise

/-- What is written after some steps was written before them or by one of them. -/
theorem mem_writtenAfter_iff {written : List Reg} {steps : List Step} {r : Reg} :
    r ∈ writtenAfter written steps ↔ r ∈ written ∨ ∃ s ∈ steps, s.instr.dst? = some r := by
  induction steps generalizing written with
  | nil => simp [writtenAfter]
  | cons s steps ih =>
    rw [writtenAfter, ih, List.mem_append, Option.mem_toList, List.exists_mem_cons_iff]
    tauto

/-- In steps that read only what was written, an earlier step writes what one of them reads. -/
theorem ReadsWritten.exists_write {before after : List Step} {s : Step} {r : Reg}
    (h : ReadsWritten [] (before ++ s :: after)) (hr : r ∈ s.instr.uses) : ∃ w ∈ before, w.instr.dst? = some r := by
  rw [readsWritten_append] at h
  exact (mem_writtenAfter_iff.mp (h.2.1 r hr)).resolve_left List.not_mem_nil

namespace Tree

variable {t : Tree}

/-- Nothing is missing from the program of a reachable tree. -/
theorem Reachable.complete_program (h : Reachable t) : t.program.Complete := by
  obtain ⟨hlinked, hrooted⟩ := h.linked_rooted
  exact (hlinked.whole_root hrooted).complete hlinked.childrenLive

/-- Generated code assigns before it reads. If a program from which nothing is missing is generated without a new
error, with the standard library, and no branch of a conditional is itself a declaration, as where all branches
are blocks: in the trace of every run of the code, from any state of the machine, each register that a step uses,
be it an instruction or a look at a condition, was written by a step before it. -/
theorem generated_code_assigns_first (hcomplete : t.program.Complete) {ctx : Context} (hstd : ctx.library = .standard)
    (hscoped : t.program.Everywhere Node.Scoped) {sink : Sink}
    (herrors : (Code.generate ctx t.program sink).2.errors = sink.errors) (types : Array Ty) (fuel : Nat) (m : Machine) :
    let trace := Instr.tracedAll types fuel (Code.generate ctx t.program sink).1.body
    trace.run m = Instr.runAll types fuel (Code.generate ctx t.program sink).1.body m ∧
      ∀ before s after, trace.steps m = before ++ s :: after →
        ∀ r ∈ s.instr.uses, ∃ w ∈ before, w.instr.dst? = some r := by
  intro trace
  obtain ⟨scopes, b, hissues, hcode⟩ := Code.issues_of_generate hcomplete herrors
  obtain ⟨-, W', hsound⟩ := hissues.sound_of_slots hstd (fun _ _ => True) (fun _ _ _ => trivial) False
    False.elim False.elim (.inr hscoped)
  have hreads : ReadsWritten [] (trace.steps m) := by
    rw [show trace = Instr.tracedAll types fuel b.finish.body by rw [← hcode]]
    exact hsound.readsWritten types fuel m
  refine ⟨congrFun (Instr.run_tracedAll types fuel _) m, fun before s after hsplit r hr => ?_⟩
  rw [hsplit] at hreads
  exact hreads.exists_write hr

/-- `for (int32 i = 0; i < 3; i++) { if (@a && i) { break; } else {} }`, where the iteration reads a local of the loop
and the right operand is only evaluated after the left one. -/
def countedBreak : Tree :=
  [Call.add (.value (.int32 0)), .add (.localName "i"), .add (.declare .int32 2 (some 1)),
    .add (.localName "i"), .add (.value (.int32 3)), .add (.binary .lt 4 5),
    .add (.localName "i"), .add (.crement .increment true 7),
    .add (.field "a" .int32 false false), .add (.localName "i"), .add (.binary .and 9 10),
    .add (.jump .break), .add (.block [12]), .add (.block []), .add (.conditional 11 13 14), .add (.block [15]),
    .add (.loop .for (some 3) (some 6) (some 8) 16), .pushStatement 0 17].foldl Call.after (.empty 0)

/-- The fields of the count, with the standard library. -/
def countedBreakContext : Context :=
  ⟨(Registry.build countedBreak .points (.empty countedBreak) {}).1, .standard, {}, fun _ => none⟩

/-- The count assigns before it reads. -/
theorem generated_code_assigns_first_countedBreak :
    countedBreak.program.Complete ∧ countedBreak.program.Everywhere Node.Scoped ∧
      (Code.generate countedBreakContext countedBreak.program {}).2.errors = 0 ∧
      ∀ types fuel m before s after,
        (Instr.tracedAll types fuel (Code.generate countedBreakContext countedBreak.program {}).1.body).steps m =
          before ++ s :: after →
        ∀ r ∈ s.instr.uses, ∃ w ∈ before, w.instr.dst? = some r := by
  have hcomplete : countedBreak.program.Complete :=
    Reachable.complete_program ((Reachable.empty 0).calls (by simp [Call.Permitted]))
  have hprogram : countedBreak.program = .node 0 (.block [.node 17 (.loop .for
      (some (.node 3 (.declare .int32 (.node 2 (.localName "i")) (some (.node 1 (.value (.int32 0)))))))
      (some (.node 6 (.binary .lt (.node 4 (.localName "i")) (.node 5 (.value (.int32 3))))))
      (some (.node 8 (.crement .increment true (.node 7 (.localName "i")))))
      (.node 16 (.block [.node 15 (.conditional
        (.node 11 (.binary .and (.node 9 (.field "a" .int32 false false)) (.node 10 (.localName "i"))))
        (.node 13 (.block [.node 12 (.jump .break)])) (.node 14 (.block [])))])))]) := rfl
  have hscoped : countedBreak.program.Everywhere Node.Scoped := by
    rw [hprogram]
    simp [Term.Everywhere.iff_children, Node.Scoped, Node.branches, Term.kind?, Node.kind]
  have herrors : (Code.generate countedBreakContext countedBreak.program {}).2.errors = 0 := by decide +kernel
  have hstd : countedBreakContext.library = .standard := rfl
  generalize countedBreakContext = ctx, countedBreak = t at *
  exact ⟨hcomplete, hscoped, herrors, fun types fuel m =>
    (generated_code_assigns_first hcomplete hstd hscoped herrors types fuel m).2⟩

end Tree

end Elementwise
