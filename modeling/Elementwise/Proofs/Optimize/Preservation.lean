import Elementwise.Proofs.Code.Ending
import Elementwise.Proofs.Optimize.Passes

/-!
# Optimisation keeps behaviour

A run that reads no register before it has written it ends in the same way after optimisation, on the
same element and with the same native calls; and code that passes verification still does. Both hold
of every pass, so of all of them one after another.
-/

namespace Elementwise

namespace Instr

variable {f : Frame} {inLoop : Bool} {types : Array Ty} {known : Constants}

/-- A constant passes if its register exists. -/
theorem check_const {d : Reg} {v : Value} :
    (const d v).check f inLoop = .ok () ↔ d < f.regs.size := by
  rw [check_leaf rfl, Frame.registers_eq_ok]
  simp [dst?, uses, checkOperands]

/-- A property of code that depends on where the code stands, and that code has by its instructions: a constant may
stand for an instruction without bodies, and the bodies of a branch or a loop may be replaced by others that have the
property where they stand. -/
structure Compositional {κ : Type} (P : κ → List Instr → Prop) : Prop where
  nil {k} : P k []
  cons {k i rest} : P k (i :: rest) ↔ P k [i] ∧ P k rest
  const {k i d v} (hleaf : i.bodies = []) (hd : i.dst? = some d) (h : P k [i]) : P k [const d v]
  branch {k c t e} (h : P k [branch c t e]) :
    P k t ∧ P k e ∧ ∀ t' e', P k t' → P k e' → P k [Instr.branch c t' e']
  loop {k kind t c b s} (h : P k [loop kind t c b s]) : ∃ kt kb ks, P kt t ∧ P kb b ∧ P ks s ∧
    ∀ t' b' s', P kt t' → P kb b' → P ks s' → P k [Instr.loop kind t' c b' s']

namespace Compositional

variable {κ : Type} {P : κ → List Instr → Prop} {k : κ} {code : List Instr}

theorem append (hP : Compositional P) {rest : List Instr} : P k (code ++ rest) ↔ P k code ∧ P k rest := by
  induction code with
  | nil => simp [hP.nil]
  | cons i code ih => rw [List.cons_append, hP.cons, ih, ← and_assoc, ← hP.cons]

/-- A pass keeps the property. -/
theorem thins (hP : Compositional P) {p : Passed (List Instr)} (h : Thins types known code p) (hcode : P k code) :
    P k p.result := by
  induction h generalizing k with
  | nil => exact hcode
  | leaf hleaf hturn _ ih =>
    rw [hP.cons] at hcode
    rw [hP.append]
    refine ⟨?_, ih hcode.2⟩
    cases hturn with
    | drop => exact hP.nil
    | keep => exact hcode.1
    | fold hd hv => exact hP.const hleaf hd hcode.1
  | branch _ _ _ iht ihe ih =>
    rw [hP.cons] at hcode
    obtain ⟨ht, he, hbranch⟩ := hP.branch hcode.1
    exact hP.cons.mpr ⟨hbranch _ _ (iht ht) (ihe he), ih hcode.2⟩
  | taken _ _ _ _ iht ihe ih =>
    rw [hP.cons] at hcode
    obtain ⟨ht, he, -⟩ := hP.branch hcode.1
    refine hP.append.mpr ⟨?_, ih hcode.2⟩
    split
    · exact iht ht
    · exact ihe he
  | loop _ _ _ _ iht ihb ihs ih =>
    rw [hP.cons] at hcode
    obtain ⟨kt, kb, ks, ht, hb, hs, hloop⟩ := hP.loop hcode.1
    exact hP.cons.mpr ⟨hloop _ _ _ (iht ht) (ihb hb) (ihs hs), ih hcode.2⟩
  | jump _ => exact (hP.cons.mp hcode).1

end Compositional

/-- Passing verification is such a property, inside loops and outside. -/
theorem compositional_checkAll (f : Frame) : Compositional fun inLoop code => checkAll f inLoop code = .ok () where
  nil := rfl
  cons {_ i _} := by rw [← List.singleton_append, checkAll_append]
  const hleaf hd h := by
    have hregs := Frame.registers_eq_ok.mp ((check_leaf hleaf).mp (checkAll_cons.mp h).1).1
    exact checkAll_cons.mpr ⟨check_const.mpr (hregs _ (by simp [hd])), rfl⟩
  branch h := by
    obtain ⟨hcondition, ht, he⟩ := check_branch.mp (checkAll_cons.mp h).1
    exact ⟨ht, he, fun _ _ ht he => checkAll_cons.mpr ⟨check_branch.mpr ⟨hcondition, ht, he⟩, rfl⟩⟩
  loop h := by
    obtain ⟨hcondition, ht, hb, hs⟩ := check_loop.mp (checkAll_cons.mp h).1
    exact ⟨_, _, _, ht, hb, hs, fun _ _ _ ht hb hs => checkAll_cons.mpr ⟨check_loop.mpr ⟨hcondition, ht, hb, hs⟩, rfl⟩⟩

end Instr

/-- Machines that look the same from outside: one element, and the same calls. -/
def Machine.Alike (m m' : Machine) : Prop := m.state = m'.state ∧ m.calls = m'.calls

theorem Outcome.Agree.trans {α : Type} {o o' o'' : Outcome α} (h : o.Agree Machine.Alike o')
    (h' : o'.Agree Machine.Alike o'') : o.Agree Machine.Alike o'' := by
  cases h with
  | done a h =>
    cases h' with
    | done _ h' => exact .done a ⟨h.1.trans h'.1, h.2.trans h'.2⟩
  | failed fault hstate hcalls =>
    cases h' with
    | failed _ hstate' hcalls' => exact .failed fault (hstate.trans hstate') (hcalls.trans hcalls')
  | exhausted => exact h'

/-- Outcomes that agree in what is seen from outside have the same ending. -/
theorem Outcome.Agree.ending? {α : Type} {o o' : Outcome α} (h : o.Agree Machine.Alike o') :
    o'.ending? = o.ending? := by
  cases h with
  | done a h => simp only [Outcome.ending?, h.1, h.2]
  | failed fault hstate hcalls => simp only [Outcome.ending?, hstate, hcalls]
  | exhausted => rfl

theorem Outcome.Agree.mono {α : Type} {tied tied' : Machine → Machine → Prop} {o o' : Outcome α}
    (h : o.Agree tied o') (himp : ∀ m m', tied m m' → tied' m m') : o.Agree tied' o' := by
  cases h with
  | done a h => exact .done a (himp _ _ h)
  | failed fault hstate hcalls => exact .failed fault hstate hcalls
  | exhausted => exact .exhausted

namespace Code

/-- A pass keeps verification. -/
theorem verify_thinned {c : Code} {p : Passed Code} (h : p.Thinned c) (hc : c.verify = .ok ()) :
    p.result.verify = .ok () := by
  rw [verify, h.regs, h.slots]
  exact (Instr.compositional_checkAll _).thins h.body hc

/-- Code that can stand for other code: it has the same registers and slots, passes verification if
that does, and follows it from every machine as long as that reads only what it wrote. -/
structure StandsFor (c' c : Code) : Prop where
  regs : c'.regs = c.regs
  slots : c'.slots = c.slots
  verified : c.verify = .ok () → c'.verify = .ok ()
  follows : c.verify = .ok () → ∀ fuel m, m.regs.size = c.regs.size →
    ReadsWritten [] ((Instr.tracedAll c.regs fuel c.body).steps m) →
      ReadsWritten [] ((Instr.tracedAll c'.regs fuel c'.body).steps m) ∧
        ((Instr.tracedAll c.regs fuel c.body).run m).Agree Machine.Alike
          ((Instr.tracedAll c'.regs fuel c'.body).run m)

namespace StandsFor

variable {c c' c'' : Code}

theorem refl (c : Code) : c.StandsFor c := by
  refine ⟨rfl, rfl, id, fun _ fuel m _ hreads => ⟨hreads, ?_⟩⟩
  cases (Instr.tracedAll c.regs fuel c.body).run m with
  | done a m => exact .done a ⟨rfl, rfl⟩
  | failed fault m => exact .failed fault rfl rfl
  | exhausted => exact .exhausted

theorem trans (h' : c''.StandsFor c') (h : c'.StandsFor c) : c''.StandsFor c where
  regs := h'.regs.trans h.regs
  slots := h'.slots.trans h.slots
  verified hc := h'.verified (h.verified hc)
  follows hc fuel m hm hreads := by
    obtain ⟨hreads', hagree⟩ := h.follows hc fuel m hm hreads
    obtain ⟨hreads'', hagree'⟩ := h'.follows (h.verified hc) fuel m (hm.trans (by rw [h.regs])) hreads'
    exact ⟨hreads'', hagree.trans hagree'⟩

/-- What a pass makes of code stands for it if it follows on machines tied by known constants. -/
theorem of_held {known : Constants} {p : Passed Code} (hpass : p.Thinned c) (h : ∀ fuel, Follows (Held known)
    (Instr.tracedAll c.regs fuel c.body) (Instr.tracedAll c.regs fuel p.result.body)) : p.result.StandsFor c := by
  refine ⟨hpass.regs, hpass.slots, verify_thinned hpass, fun _ fuel m _ hreads => ?_⟩
  obtain ⟨hreads', hagree⟩ := h fuel [] m [] m ⟨rfl, rfl, by simp⟩ hreads
  rw [hpass.regs]
  exact ⟨hreads', hagree.mono fun n n' hheld => by rw [hheld.2.1]; exact ⟨rfl, rfl⟩⟩

end StandsFor

/-- Folded code stands for the code it was made from. -/
theorem foldConstants_standsFor (c : Code) : c.foldConstants.result.StandsFor c := by
  have hfold := c.foldConstants_thinned
  unfold foldConstants at hfold ⊢
  split
  · exact .refl c
  · next hconstants =>
    rw [if_neg hconstants] at hfold
    exact .of_held hfold fun _ => Instr.foldAll_follows c.respects_constants

/-- Code without its dead instructions stands for the code it was made from. -/
theorem removeDead_standsFor (c : Code) : c.removeDead.result.StandsFor c := by
  refine ⟨rfl, rfl, verify_thinned c.removeDead_thinned, fun hverify fuel m hm hreads => ?_⟩
  have huses : ∀ i ∈ Instr.partsAll c.body, ∀ r ∈ i.uses, (Instr.readsAll c.body).contains r := by
    intro i hi r hr
    rw [Instr.readsAll_eq]
    simpa using ⟨i, hi, hr⟩
  obtain ⟨hreads', hagree⟩ := Instr.sweepAll_follows hverify huses [] m [] m
    ⟨⟨rfl, rfl, rfl, fun _ _ => rfl⟩, by simp, hm⟩ hreads
  exact ⟨hreads', hagree.mono fun n n' hlive => ⟨hlive.1.state, hlive.1.calls⟩⟩

theorem resolveBranches_standsFor (c : Code) : c.resolveBranches.result.StandsFor c :=
  .of_held c.resolveBranches_thinned fun _ => Instr.resolveAll_follows c.respects_constants

theorem removeUnreachable_standsFor (c : Code) : c.removeUnreachable.result.StandsFor c :=
  .of_held c.removeUnreachable_thinned fun _ => Instr.pruneAll_follows c.body

/-- Optimised code stands for the code before. -/
theorem optimize_standsFor (level : OptLevel) (c : Code) : (c.optimize level).StandsFor c := by
  have hpass : ∀ pass ∈ passes level, ∀ c, (pass c).result.StandsFor c := forall_mem_passes foldConstants_standsFor
    resolveBranches_standsFor removeUnreachable_standsFor removeDead_standsFor level
  exact optimize_induction (fun pass hmem c' hc' => (hpass pass hmem c').trans hc') (.refl c)

/-- Code that passes verification compiles to itself. -/
theorem compile_eq_ok {c : Code} (h : c.verify = .ok ()) : c.compile = .ok ⟨c, h⟩ := by
  unfold compile
  split
  · rfl
  · next e he => exact absurd (h.symm.trans he) (by simp)

/-- Code that stands for a program compiles, and with any fuel it ends on an element as the program
does, if that reads there only what it wrote. -/
theorem StandsFor.exists_program {c : Code} {p : Program} (h : c.StandsFor p.code) :
    ∃ q : Program, c.compile = .ok q ∧ ∀ state fuel, ReadsWritten [] (p.steps fuel state) →
      (q.run fuel state).ending? = (p.run fuel state).ending? := by
  refine ⟨⟨c, h.verified p.verified⟩, compile_eq_ok _, fun state fuel hreads => ?_⟩
  have hagree := (h.follows p.verified fuel (p.start state) (by simp [Program.start]) hreads).2
  rw [Instr.run_tracedAll, Instr.run_tracedAll] at hagree
  have hstart : Program.start ⟨c, h.verified p.verified⟩ state = p.start state := by
    simp only [Program.start, h.regs]
  rw [Program.run, hstart]
  exact hagree.ending?

end Code

/-- Optimising a program keeps its behaviour on every element where its run reads no register before
writing it: the optimised code compiles, ends if and only if the program does, and then in the same
way, with the same element and after the same native calls. -/
theorem optimize_keeps_endings (p : Program) (level : OptLevel) (state : ElementState)
    (hreads : ∀ fuel, ReadsWritten [] (p.steps fuel state)) :
    ∃ q : Program, (p.code.optimize level).compile = .ok q ∧
      ∀ ending, q.EndsWith state ending ↔ p.EndsWith state ending := by
  obtain ⟨q, hcompile, hending⟩ := (Code.optimize_standsFor level p.code).exists_program
  refine ⟨q, hcompile, fun ending => ?_⟩
  simp only [Program.EndsWith, hending state _ (hreads _)]

/-- Adds two constants if a third one is true, and writes the sum into a slot. -/
def guardedSum : Program where
  code := {
    target := .points
    regs := #[.bool, .int32, .int32, .int32]
    slots := 1
    body := [
      .const 0 (.bool true), .const 1 (.int32 2), .const 2 (.int32 3),
      .branch 0 [.binary 3 .add 1 2] [.jump .return],
      .write 0 3] }
  verified := rfl

/-- The sum is written before it is read, so it is the same after the branch is resolved and the
addition folded. -/
theorem optimize_keeps_endings_guardedSum :
    (∀ fuel, ReadsWritten [] (guardedSum.steps fuel (.start #[.int32 0] none))) ∧
      ∃ q : Program, (guardedSum.code.optimize .full).compile = .ok q ∧
        ∀ ending, q.EndsWith (.start #[.int32 0] none) ending ↔
          guardedSum.EndsWith (.start #[.int32 0] none) ending := by
  have hreads : ∀ fuel, ReadsWritten [] (guardedSum.steps fuel (.start #[.int32 0] none)) := by
    intro fuel
    have htrue : (Value.bool true).truthy = true := rfl
    simp [htrue, guardedSum, Program.steps, Program.start, Instr.tracedAll, Instr.traced, Traced.bind, Traced.one,
      Traced.pure, Instr.run, Machine.set, Machine.withReg, ReadsWritten, Instr.uses, Instr.dst?]
  exact ⟨hreads, optimize_keeps_endings guardedSum .full _ hreads⟩

end Elementwise
