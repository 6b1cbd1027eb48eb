import Elementwise.Code.Machine

/-!
# The steps of a run

A run is made of steps: one for every instruction that the machine executes, in order, with the
machine before it. A branch is a step of its own before the body it takes, and a loop is one each
time it looks at its condition. `Instr.traced` runs code and keeps the steps; its outcome is that of
`Instr.run`. What a run reads and writes is read off its steps.
-/

namespace Elementwise

/-- One step of a run: the machine before it and the instruction that is executed. -/
structure Step where
  machine : Machine
  instr : Instr

/-- The registers that are written when steps have been made after the registers `written`. -/
def writtenAfter (written : List Reg) : List Step → List Reg
  | [] => written
  | s :: rest => writtenAfter (s.instr.dst?.toList ++ written) rest

/-- No step reads a register that neither is in `written` nor was written by an earlier step. -/
def ReadsWritten (written : List Reg) : List Step → Prop
  | [] => True
  | s :: rest => (∀ r ∈ s.instr.uses, r ∈ written) ∧ ReadsWritten (s.instr.dst?.toList ++ written) rest

/-- Steps after steps add to what was written. -/
@[simp] theorem writtenAfter_append (written : List Reg) (a b : List Step) :
    writtenAfter written (a ++ b) = writtenAfter (writtenAfter written a) b := by
  induction a generalizing written with
  | nil => rfl
  | cons s rest ih => exact ih _

/-- Steps after steps read what was written before or by the steps in front of them. -/
theorem readsWritten_append (written : List Reg) (a b : List Step) :
    ReadsWritten written (a ++ b) ↔ ReadsWritten written a ∧ ReadsWritten (writtenAfter written a) b := by
  induction a generalizing written with
  | nil => simp [ReadsWritten, writtenAfter]
  | cons s rest ih => simp [ReadsWritten, writtenAfter, ih, and_assoc]

/-- What is written stays written. -/
theorem mem_writtenAfter {written : List Reg} {r : Reg} (h : r ∈ written) (steps : List Step) :
    r ∈ writtenAfter written steps := by
  induction steps generalizing written with
  | nil => exact h
  | cons s rest ih => exact ih (List.mem_append_right _ h)

/-- A way to run from a machine, with the steps that the run makes. -/
structure Traced (α : Type) where
  run : Machine → Outcome α
  steps : Machine → List Step

namespace Traced

variable {α β : Type}

/-- Give a result without any step. -/
def pure (a : α) : Traced α := ⟨fun m => .done a m, fun _ => []⟩

/-- One step, which executes the given instruction. -/
def one (i : Instr) (run : Machine → Outcome α) : Traced α := ⟨run, fun m => [⟨m, i⟩]⟩

/-- Go on with the result of a run; a run that failed or used up its fuel ends there. -/
def bind (t : Traced α) (k : α → Traced β) : Traced β where
  run m := match t.run m with
    | .done a m => (k a).run m
    | .failed fault m => .failed fault m
    | .exhausted => .exhausted
  steps m := t.steps m ++ match t.run m with
    | .done a m => (k a).steps m
    | _ => []

/-- The passes of a loop, as many as there is fuel. -/
def loop (test : Traced (Option Bool)) (body step : Traced Flow) : Nat → Bool → Traced Flow
  | 0, _ => ⟨fun _ => .exhausted, fun _ => []⟩
  | fuel + 1, first => (if first then pure (some true) else test).bind fun
    | none => pure (.jump .return)
    | some false => pure .next
    | some true => body.bind fun
      | .jump .break => pure .next
      | .jump .return => pure (.jump .return)
      | _ => step.bind fun
        | .jump .return => pure (.jump .return)
        | _ => loop test body step fuel false

/-- Look at the condition of a loop. -/
def look (condition : Option Reg) (m : Machine) : Outcome (Option Bool) :=
  match condition with
  | none => .done (some true) m
  | some r =>
    match m.regs[r]? with
    | some v => .done (some v.truthy) m
    | none => .failed (.register r) m

/-- The test of a loop: its instructions, then one step that looks at its condition. -/
def test (self : Instr) (condition : Option Reg) (instrs : Traced Flow) : Traced (Option Bool) :=
  instrs.bind fun
    | .jump .return => pure none
    | _ => one self (look condition)

/-- The traced passes of a loop run as the loop does. -/
theorem run_loop (test : Traced (Option Bool)) (body step : Traced Flow) (fuel : Nat) (first : Bool) :
    (loop test body step fuel first).run = runLoop test.run body.run step.run fuel first := by
  induction fuel generalizing first with
  | zero => rfl
  | succ fuel ih =>
    funext m
    have hstart : (if first then pure (some true) else test).run m =
        if first then .done (some true) m else test.run m := by
      cases first <;> rfl
    rw [runLoop, ← hstart]
    simp only [loop, bind]
    rcases (if first then pure (some true) else test).run m with ⟨_ | _ | _, m⟩ | _ | _ <;> try rfl
    dsimp only
    rcases body.run m with ⟨_ | _ | _ | _, m⟩ | _ | _ <;> try rfl
    all_goals
      dsimp only
      rcases step.run m with ⟨_ | _ | _ | _, m⟩ | _ | _ <;> first | rfl | exact congrFun (ih false) m

/-- The traced test of a loop runs as the test does. -/
theorem run_test (self : Instr) (condition : Option Reg) (instrs : Traced Flow) :
    (test self condition instrs).run = runTest instrs.run condition := by
  funext m
  rw [runTest]
  simp only [test, bind]
  rcases instrs.run m with ⟨_ | _ | _ | _, m⟩ | _ | _ <;> rfl

end Traced

namespace Instr

mutual
/-- One instruction with its steps. -/
def traced (types : Array Ty) (fuel : Nat) : Instr → Traced Flow
  | branch condition thenBody elseBody =>
    (Traced.one (branch condition thenBody elseBody) fun m =>
      match m.regs[condition]? with
      | some v => .done v.truthy m
      | none => .failed (.register condition) m).bind fun taken =>
        if taken then tracedAll types fuel thenBody else tracedAll types fuel elseBody
  | loop kind test condition body step =>
    Traced.loop (Traced.test (loop kind test condition body step) condition (tracedAll types fuel test))
      (tracedAll types fuel body) (tracedAll types fuel step) fuel (kind == .doWhile)
  | i => Traced.one i (i.run types fuel)

/-- Instructions one after another, with their steps. -/
def tracedAll (types : Array Ty) (fuel : Nat) : List Instr → Traced Flow
  | [] => Traced.pure .next
  | i :: rest => (i.traced types fuel).bind fun
    | .next => tracedAll types fuel rest
    | .jump word => Traced.pure (.jump word)
end

/-- Induction over code: along a body, and into the bodies of branches and loops. -/
@[elab_as_elim]
theorem code_induction {P : List Instr → Prop} (nil : P [])
    (leaf : ∀ i rest, i.bodies = [] → P rest → P (i :: rest))
    (branch : ∀ condition thenBody elseBody rest, P thenBody → P elseBody → P rest →
      P (branch condition thenBody elseBody :: rest))
    (loop : ∀ kind test condition body step rest, P test → P body → P step → P rest →
      P (loop kind test condition body step :: rest)) : ∀ code, P code
  | [] => nil
  | i :: rest => by
    have hrest := code_induction nil leaf branch loop rest
    cases i with
    | branch c t e =>
      exact branch c t e rest (code_induction nil leaf branch loop t)
        (code_induction nil leaf branch loop e) hrest
    | loop k t c b s =>
      exact loop k t c b s rest (code_induction nil leaf branch loop t)
        (code_induction nil leaf branch loop b) (code_induction nil leaf branch loop s) hrest
    | _ => exact leaf _ rest rfl hrest

/-- An instruction without bodies is one step. -/
theorem traced_leaf {i : Instr} (hleaf : i.bodies = []) (types : Array Ty) (fuel : Nat) :
    i.traced types fuel = Traced.one i (i.run types fuel) := by
  cases i <;> first | rfl | simp [bodies] at hleaf

mutual
/-- An instruction and all instructions in its bodies. -/
def parts : Instr → List Instr
  | branch condition thenBody elseBody =>
    branch condition thenBody elseBody :: (partsAll thenBody ++ partsAll elseBody)
  | loop kind test condition body step =>
    loop kind test condition body step :: (partsAll test ++ partsAll body ++ partsAll step)
  | i => [i]

/-- All instructions of a body, nested ones included. -/
def partsAll : List Instr → List Instr
  | [] => []
  | i :: rest => i.parts ++ partsAll rest
end

theorem parts_leaf {i : Instr} (hleaf : i.bodies = []) : i.parts = [i] := by
  cases i <;> first | rfl | simp [bodies] at hleaf

/-- The parts of code after code. -/
@[simp] theorem partsAll_append (a b : List Instr) : partsAll (a ++ b) = partsAll a ++ partsAll b := by
  induction a with
  | nil => rfl
  | cons i rest ih => rw [List.cons_append, partsAll, partsAll, ih, List.append_assoc]

/-- Code that is traced runs as the machine runs it. -/
theorem run_tracedAll (types : Array Ty) (fuel : Nat) (code : List Instr) :
    (tracedAll types fuel code).run = runAll types fuel code := by
  have hcons (i : Instr) (rest : List Instr) (hi : (i.traced types fuel).run = i.run types fuel)
      (hrest : (tracedAll types fuel rest).run = runAll types fuel rest) :
      (tracedAll types fuel (i :: rest)).run = runAll types fuel (i :: rest) := by
    funext m
    rw [runAll]
    simp only [tracedAll, Traced.bind, hi]
    rcases i.run types fuel m with ⟨_ | _, m⟩ | _ | _ <;> first | rfl | exact congrFun hrest m
  induction code using code_induction with
  | nil => rfl
  | leaf i rest hleaf hrest => rw [hcons i rest (by rw [traced_leaf hleaf]; rfl) hrest]
  | branch c t e rest ht he hrest =>
    refine hcons _ rest ?_ hrest
    funext m
    rw [run]
    simp only [traced, Traced.bind, Traced.one]
    cases m.regs[c]? with
    | none => rfl
    | some v => cases hv : v.truthy <;> simp [hv, ht, he]
  | loop k t c b s rest ht hb hs hrest =>
    refine hcons _ rest ?_ hrest
    funext m
    rw [run, traced, Traced.run_loop, Traced.run_test, ht, hb, hs]

end Instr

namespace Traced

/-- A run that looks at registers of an instruction: it leaves the machine as it is, or fails where a register does
not exist. -/
def Looks {α : Type} (i : Instr) (run : Machine → Outcome α) : Prop :=
  ∀ m : Machine, (∃ a, run m = .done a m) ∨ ∃ r ∈ i.uses, m.regs[r]? = none ∧ run m = .failed (.register r) m

/-- A relation of runs that runs inherit from their parts. -/
structure Composes (Q : ∀ α : Type, Traced α → Traced α → Prop) : Prop where
  pure : ∀ {α : Type} (a : α), Q α (.pure a) (.pure a)
  bind : ∀ {α β : Type} {t t' : Traced α} {k k' : α → Traced β}, Q α t t' → (∀ a, Q β (k a) (k' a)) →
    Q β (t.bind k) (t'.bind k')

namespace Composes

variable {Q : ∀ α : Type, Traced α → Traced α → Prop}

/-- Loops are related if their parts are, also if one has more fuel and the other has none left. -/
theorem loop (h : Composes Q) {test test' : Traced (Option Bool)} {body body' step step' : Traced Flow} {n : Nat}
    (hspent : ∀ first, Q _ (.loop test body step 0 first) (.loop test' body' step' n first)) (htest : Q _ test test')
    (hbody : Q _ body body') (hstep : Q _ step step') (fuel : Nat) (first : Bool) :
    Q _ (.loop test body step fuel first) (.loop test' body' step' (n + fuel) first) := by
  induction fuel generalizing first with
  | zero => exact hspent first
  | succ fuel ih =>
    have hstart : Q _ (if first then .pure (some true) else test) (if first then .pure (some true) else test') := by
      cases first
      · exact htest
      · exact h.pure _
    refine h.bind hstart fun again => ?_
    rcases again with _ | _ | _
    · exact h.pure _
    · exact h.pure _
    · refine h.bind hbody fun flow => ?_
      rcases flow with _ | _ | _ | _ <;> try exact h.pure _
      all_goals
        refine h.bind hstep fun flow => ?_
        rcases flow with _ | _ | _ | _ <;> first | exact h.pure _ | exact ih false

/-- Tests of loops are related if their instructions and their last steps are. -/
theorem test (h : Composes Q) {instrs instrs' : Traced Flow} {self self' : Instr} {condition : Option Reg}
    (hinstrs : Q _ instrs instrs') (hlook : Q _ (.one self (look condition)) (.one self' (look condition))) :
    Q _ (.test self condition instrs) (.test self' condition instrs') := by
  refine h.bind hinstrs fun flow => ?_
  rcases flow with _ | _ | _ | _ <;> first | exact hlook | exact h.pure _

/-- Code is related to itself, run with more fuel, if the steps of its instructions are. -/
theorem tracedAll (h : Composes Q) (types : Array Ty) {fuel fuel' : Nat} (hfuel : fuel ≤ fuel') {code : List Instr}
    (hspent : ∀ t : Traced Flow, Q _ ⟨fun _ => .exhausted, fun _ => []⟩ t)
    (hleaf : ∀ i ∈ Instr.partsAll code, i.bodies = [] → Q _ (.one i (i.run types fuel)) (.one i (i.run types fuel')))
    (hlooks : ∀ i ∈ Instr.partsAll code, i.bodies ≠ [] → ∀ (α : Type) (run : Machine → Outcome α), Looks i run →
      Q _ (.one i run) (.one i run)) : Q _ (Instr.tracedAll types fuel code) (Instr.tracedAll types fuel' code) := by
  have hcons {i : Instr} {rest : List Instr} (hi : Q _ (i.traced types fuel) (i.traced types fuel'))
      (hrest : Q _ (Instr.tracedAll types fuel rest) (Instr.tracedAll types fuel' rest)) :
      Q _ (Instr.tracedAll types fuel (i :: rest)) (Instr.tracedAll types fuel' (i :: rest)) := by
    refine h.bind hi fun flow => ?_
    cases flow with
    | next => exact hrest
    | jump word => exact h.pure _
  induction code using Instr.code_induction with
  | nil => exact h.pure _
  | leaf i rest hbodies ih =>
    rw [Instr.partsAll, Instr.parts_leaf hbodies, List.singleton_append] at hleaf hlooks
    rw [List.forall_mem_cons] at hleaf hlooks
    refine hcons ?_ (ih hleaf.2 hlooks.2)
    rw [Instr.traced_leaf hbodies, Instr.traced_leaf hbodies]
    exact hleaf.1 hbodies
  | branch c t e rest iht ihe ih =>
    simp only [Instr.partsAll, Instr.parts, List.cons_append, List.forall_mem_cons, List.forall_mem_append] at hleaf hlooks
    refine hcons (h.bind (hlooks.1 (by simp [Instr.bodies]) _ _ fun m => ?_) fun taken => ?_) (ih hleaf.2.2 hlooks.2.2)
    · cases hc : m.regs[c]? with
      | some v => exact .inl ⟨v.truthy, rfl⟩
      | none => exact .inr ⟨c, by simp [Instr.uses], hc, rfl⟩
    · cases taken
      · exact ihe hleaf.2.1.2 hlooks.2.1.2
      · exact iht hleaf.2.1.1 hlooks.2.1.1
  | loop k t c b s rest iht ihb ihs ih =>
    simp only [Instr.partsAll, Instr.parts, List.cons_append, List.forall_mem_cons, List.forall_mem_append] at hleaf hlooks
    obtain ⟨n, rfl⟩ := Nat.exists_eq_add_of_le' hfuel
    refine hcons (h.loop (fun _ => hspent _) (h.test (iht hleaf.2.1.1.1 hlooks.2.1.1.1) ?_)
      (ihb hleaf.2.1.1.2 hlooks.2.1.1.2) (ihs hleaf.2.1.2 hlooks.2.1.2) fuel _) (ih hleaf.2.2 hlooks.2.2)
    refine hlooks.1 (by simp [Instr.bodies]) _ _ fun m => ?_
    cases c with
    | none => exact .inl ⟨_, rfl⟩
    | some r =>
      cases hr : m.regs[r]? with
      | some v => exact .inl ⟨some v.truthy, by simp only [look, hr]⟩
      | none => exact .inr ⟨r, by simp [Instr.uses], hr, by simp only [look, hr]⟩

end Composes

end Traced

/-- The steps of running a program on an element. -/
def Program.steps (p : Program) (fuel : Nat) (state : ElementState) : List Step :=
  (Instr.tracedAll p.code.regs fuel p.code.body).steps (p.start state)

end Elementwise
