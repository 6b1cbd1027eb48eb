import Elementwise.Proofs.Code.Verify
import Elementwise.Proofs.Optimize.Constants

/-!
# Verified code stays in bounds

Verification looks at every instruction once, nested ones included; a run executes instructions as often as
loops go round. In every run of verified code, however long, each step finds all its registers in a register
file of the size it started with, and an element that differs from the one before the run by the writes
executed so far and by nothing else. So no run fails but in a native body.
-/

namespace Elementwise

namespace Step

/-- The step executes a write to a slot. -/
def Writes (slot : Nat) (s : Step) : Prop := ∃ src, s.instr = .write slot src

/-- The step calls a native body, which has no answer for its arguments. -/
def FailsIn (name : String) (s : Step) : Prop :=
  ∃ dst body args vs, s.instr = .call dst name body args ∧ s.machine.fetch args = .ok vs ∧ body vs = none

end Step

namespace ElementState

/-- What the writes among some steps made of an element: it has the same coordinate and as many slots, the
slots that were written are marked, and the others keep their mark and their value. -/
structure ChangedBy (steps : List Step) (s s' : ElementState) : Prop where
  coord : s'.coord = s.coord
  values_size : s'.values.size = s.values.size
  written_size : s'.written.size = s.written.size
  written : ∀ slot, s'.written[slot]? = some true ↔ s.written[slot]? = some true ∨ ∃ step ∈ steps, step.Writes slot
  values : ∀ slot, (∀ step ∈ steps, ¬step.Writes slot) → s'.values[slot]? = s.values[slot]?

namespace ChangedBy

variable {steps : List Step} {s s' : ElementState} {step : Step}

theorem nil (s : ElementState) : ChangedBy [] s s := ⟨rfl, rfl, rfl, by simp, fun _ _ => rfl⟩

/-- A step that writes no slot changes nothing. -/
theorem other (h : ChangedBy steps s s') (hstep : ∀ slot, ¬step.Writes slot) : ChangedBy (steps ++ [step]) s s' where
  coord := h.coord
  values_size := h.values_size
  written_size := h.written_size
  written slot := by simp [h.written, hstep slot]
  values slot hslot := h.values slot fun step' hstep' => hslot step' (List.mem_append_left _ hstep')

/-- A write to a slot of the element. -/
theorem write (h : ChangedBy steps s s') {m : Machine} {slot : Nat} {src : Reg} (hvalues : slot < s.values.size)
    (hflags : slot < s.written.size) (v : Value) :
    ChangedBy (steps ++ [⟨m, .write slot src⟩]) s (s'.write slot v) := by
  have hother (other : Nat) : Step.Writes other ⟨m, .write slot src⟩ ↔ slot = other := by simp [Step.Writes]
  unfold ElementState.write
  rw [if_pos (h.values_size ▸ hvalues)]
  refine ⟨h.coord, by simpa using h.values_size, by simpa using h.written_size, fun other => ?_, fun other hkept => ?_⟩
  · by_cases hslot : slot = other
    · subst hslot
      simp [hother, h.written_size, hflags]
    · simp [hother, hslot, h.written]
  · have hslot : slot ≠ other := fun heq => hkept _ (by simp) ((hother other).mpr heq)
    have hvalue := h.values other fun step hstep => hkept step (List.mem_append_left _ hstep)
    simpa [hslot] using hvalue

end ChangedBy

end ElementState

/-- A register file of a given size, and an element that some steps have changed. -/
structure Machine.Framed (count : Nat) (s : ElementState) (past : List Step) (m : Machine) : Prop where
  regs : m.regs.size = count
  state : s.ChangedBy past m.state

/-- Every one of some steps finds its registers and a framed machine, after the steps before it. -/
def InBounds (count : Nat) (s : ElementState) (past : List Step) : List Step → Prop
  | [] => True
  | step :: rest =>
    (step.machine.Framed count s past ∧ ∀ r ∈ step.instr.dst?.toList ++ step.instr.uses, r < step.machine.regs.size) ∧
      InBounds count s (past ++ [step]) rest

/-- Steps after steps are in bounds if both are. -/
theorem inBounds_append {count : Nat} {s : ElementState} {past a b : List Step} :
    InBounds count s past (a ++ b) ↔ InBounds count s past a ∧ InBounds count s (past ++ a) b := by
  induction a generalizing past with
  | nil => simp [InBounds]
  | cons step rest ih => simp [InBounds, ih, and_assoc]

namespace Instr

variable {count slots : Nat} {i : Instr} {s : ElementState} {past : List Step} {m : Machine}

/-- An instruction without bodies that names what exists: it goes on with a framed machine, or is a call whose
native body has no answer. -/
theorem Bounded.run_leaf (h : i.Bounded count slots) (types : Array Ty) (fuel : Nat) (hleaf : i.bodies = [])
    (hvalues : slots ≤ s.values.size) (hflags : slots ≤ s.written.size) (hm : m.Framed count s past) :
    (∃ flow n, i.run types fuel m = .done flow n ∧ n.Framed count s (past ++ [⟨m, i⟩])) ∨
      ∃ name n, i.run types fuel m = .failed (.native name) n ∧ n.Framed count s (past ++ [⟨m, i⟩]) ∧
        Step.FailsIn name ⟨m, i⟩ := by
  have hregs : ∀ r ∈ i.dst?.toList ++ i.uses, r < m.regs.size := hm.regs ▸ h.regs
  have hquiet (hi : ∀ slot src, i ≠ write slot src) : s.ChangedBy (past ++ [⟨m, i⟩]) m.state := by
    refine hm.state.other ?_
    rintro slot ⟨src, hwrite⟩
    exact hi slot src hwrite
  -- without effects only a register is written; of the other instructions without bodies, a write changes the
  -- element, and a call can fail
  cases heffects : i.hasEffects with
  | false =>
    obtain ⟨d, v, -, hrun⟩ := run_pure types fuel heffects hregs
    refine .inl ⟨_, _, hrun, by simpa using hm.regs, hquiet ?_⟩
    rintro slot src rfl
    cases heffects
  | true =>
    cases i with
    | write slot src =>
      obtain ⟨v, hv⟩ : ∃ v, m.regs[src]? = some v := ⟨_, Array.getElem?_eq_getElem (hregs src (by simp [uses]))⟩
      refine .inl ⟨.next, { m with state := m.state.write slot v }, ?_, hm.regs, ?_⟩
      · simp only [run, Machine.withReg, hv]
      · have hslot := h.slot slot src rfl
        exact hm.state.write (by omega) (by omega) _
    | call d name body args =>
      obtain ⟨vs, hvs⟩ : ∃ vs, m.fetch args = .ok vs :=
        exists_fetch fun r hr => hregs r (List.mem_append_right _ hr)
      have hrun : (call d name body args).run types fuel m = m.callNative d name body vs := by
        simp only [run, Machine.withRegs, hvs]
      have hd : d < m.regs.size := hregs d (by simp [dst?])
      rw [hrun, Machine.callNative]
      cases hbody : body vs with
      | none => exact .inr ⟨name, _, rfl, ⟨hm.regs, hquiet (by simp)⟩, d, body, args, vs, rfl, hvs, hbody⟩
      | some result =>
        refine .inl ⟨.next, _, if_pos hd, by simpa using hm.regs, hquiet (by simp)⟩
    | jump word => exact .inl ⟨.jump word, m, rfl, hm.regs, hquiet (by simp)⟩
    | branch | loop => simp [bodies] at hleaf
    | _ => cases heffects

end Instr

namespace Traced

variable {α β : Type} {count : Nat} {s : ElementState}

/-- A run from a framed machine goes on in bounds: every step is, a run that is done leaves a framed machine, and
one that fails does so in the native body that its last step calls. -/
def StaysFramed (count : Nat) (s : ElementState) (t : Traced α) : Prop :=
  ∀ past m, m.Framed count s past → InBounds count s past (t.steps m) ∧
    (∀ a n, t.run m = .done a n → n.Framed count s (past ++ t.steps m)) ∧
    ∀ fault n, t.run m = .failed fault n → n.Framed count s (past ++ t.steps m) ∧
      ∃ name before step, fault = .native name ∧ t.steps m = before ++ [step] ∧ step.FailsIn name

namespace StaysFramed

theorem pure (a : α) : StaysFramed count s (.pure a) := by
  refine fun past m hm => ⟨trivial, fun b n hdone => ?_, by simp [Traced.pure]⟩
  obtain ⟨-, rfl⟩ := Outcome.done.inj hdone
  simpa [Traced.pure] using hm

theorem bind {t : Traced α} {k : α → Traced β} (h : t.StaysFramed count s) (hk : ∀ a, (k a).StaysFramed count s) :
    (t.bind k).StaysFramed count s := by
  intro past m hm
  obtain ⟨hsteps, hdone, hfailed⟩ := h past m hm
  simp only [Traced.bind]
  cases hrun : t.run m with
  | done a n =>
    obtain ⟨hsteps', hdone', hfailed'⟩ := hk a _ n (hdone a n hrun)
    rw [inBounds_append]
    simp only [← List.append_assoc]
    refine ⟨⟨hsteps, hsteps'⟩, hdone', fun fault l hfault => ?_⟩
    obtain ⟨hl, name, before, step, rfl, hlast, hfails⟩ := hfailed' fault l hfault
    exact ⟨hl, name, t.steps m ++ before, step, rfl, by rw [hlast, List.append_assoc], hfails⟩
  | failed fault n =>
    simp only [List.append_nil]
    refine ⟨hsteps, by simp, fun fault' l hfault => ?_⟩
    obtain ⟨rfl, rfl⟩ := Outcome.failed.inj hfault
    exact hfailed fault n hrun
  | exhausted =>
    simp only [List.append_nil]
    exact ⟨hsteps, by simp, by simp⟩

/-- One step that looks at registers that exist. -/
theorem one {i : Instr} {run : Machine → Outcome α} (hregs : ∀ r ∈ i.uses, r < count) (hbodies : i.bodies ≠ [])
    (hlooks : Looks i run) : StaysFramed count s (.one i run) := by
  intro past m hm
  have hdst : i.dst? = none := by cases i <;> first | rfl | exact absurd rfl hbodies
  have hquiet : m.Framed count s (past ++ [⟨m, i⟩]) := by
    refine ⟨hm.regs, hm.state.other ?_⟩
    rintro slot ⟨src, hwrite⟩
    exact hbodies (congrArg Instr.bodies hwrite)
  obtain ⟨a, ha⟩ | ⟨r, hr, hnone, -⟩ := hlooks m
  · refine ⟨⟨⟨hm, by simpa [hdst] using hm.regs ▸ hregs⟩, trivial⟩, fun b n hdone => ?_, fun fault n hfault => ?_⟩
    · obtain ⟨-, rfl⟩ := Outcome.done.inj (ha.symm.trans hdone)
      exact hquiet
    · cases ha.symm.trans hfault
  · exact absurd (hm.regs ▸ hregs r hr) (Nat.not_lt.mpr (Array.getElem?_eq_none_iff.mp hnone))

end StaysFramed

end Traced

namespace Instr

variable {count slots : Nat} {s : ElementState}

/-- A run of code whose instructions name what exists stays in bounds. -/
theorem tracedAll_staysFramed (types : Array Ty) (fuel : Nat) (hvalues : slots ≤ s.values.size)
    (hflags : slots ≤ s.written.size) {code : List Instr} (h : ∀ i ∈ partsAll code, i.Bounded count slots) :
    (tracedAll types fuel code).StaysFramed count s := by
  have hcomposes : Traced.Composes fun _ t _ => t.StaysFramed count s := ⟨.pure, .bind⟩
  refine hcomposes.tracedAll types (Nat.le_refl fuel) (fun _ _ _ _ => ⟨trivial, by simp, by simp⟩)
    (fun i hi hleaf past m hm => ?_)
    fun i hi hbodies α run hlooks => .one (fun r hr => (h i hi).regs r (List.mem_append_right _ hr)) hbodies hlooks
  refine ⟨⟨⟨hm, hm.regs ▸ (h i hi).regs⟩, trivial⟩, ?_⟩
  dsimp only [Traced.one]
  rcases (h i hi).run_leaf types fuel hleaf hvalues hflags hm with
    ⟨flow, n, hrun, hn⟩ | ⟨name, n, hrun, hn, hfails⟩
  · rw [hrun]
    refine ⟨fun a l hdone => ?_, by simp⟩
    obtain ⟨-, rfl⟩ := Outcome.done.inj hdone
    exact hn
  · rw [hrun]
    refine ⟨by simp, fun fault l hfault => ?_⟩
    obtain ⟨rfl, rfl⟩ := Outcome.failed.inj hfault
    exact ⟨hn, name, [], _, rfl, rfl, hfails⟩

end Instr

/-- A step of a run that is in bounds, with the steps before it. -/
theorem InBounds.step {count : Nat} {s : ElementState} {steps before after : List Step} {step : Step}
    (h : InBounds count s [] steps) (hsplit : steps = before ++ step :: after) :
    step.machine.Framed count s before ∧
      ∀ r ∈ step.instr.dst?.toList ++ step.instr.uses, r < step.machine.regs.size := by
  rw [hsplit, inBounds_append] at h
  simpa using h.2.1

namespace Program

/-- Verified code cannot go out of bounds, in any run on an element with at least the slots of the code. Before
every step, all registers that its instruction names lie in a register file of the size that the code declares,
and only the writes executed before it have changed the element. So it is when the run ends: coordinate and
number of slots are what they were, a slot is marked exactly if it was before or a write to it was executed, and
one that no write was executed on has its value. A run fails only in the native body that its last step calls. -/
theorem run_inBounds (p : Program) (s : ElementState) (hvalues : p.code.slots ≤ s.values.size)
    (hflags : p.code.slots ≤ s.written.size) (fuel : Nat) :
    (∀ before step after, p.steps fuel s = before ++ step :: after →
      (step.machine.regs.size = p.code.regs.size ∧
        ∀ r ∈ step.instr.dst?.toList ++ step.instr.uses, r < step.machine.regs.size) ∧
      s.ChangedBy before step.machine.state) ∧
    (∀ flow m, p.run fuel s = .done flow m →
      m.regs.size = p.code.regs.size ∧ s.ChangedBy (p.steps fuel s) m.state) ∧
    ∀ fault m, p.run fuel s = .failed fault m →
      (m.regs.size = p.code.regs.size ∧ s.ChangedBy (p.steps fuel s) m.state) ∧
      ∃ name before step, fault = .native name ∧ p.steps fuel s = before ++ [step] ∧ step.FailsIn name := by
  have hstart : (p.start s).Framed p.code.regs.size s [] := ⟨by simp [start], .nil s⟩
  obtain ⟨hsteps, hdone, hfailed⟩ := Instr.tracedAll_staysFramed p.code.regs fuel hvalues hflags
    (Instr.bounded_of_checkAll p.verified) [] (p.start s) hstart
  rw [Instr.run_tracedAll] at hdone hfailed
  refine ⟨fun before step after hsplit => ?_, fun flow m hrun => ?_, fun fault m hrun => ?_⟩
  · obtain ⟨hframed, hregs⟩ := hsteps.step hsplit
    exact ⟨⟨hframed.regs, hregs⟩, hframed.state⟩
  · obtain ⟨hregs, hstate⟩ := hdone flow m hrun
    exact ⟨hregs, hstate⟩
  · obtain ⟨⟨hregs, hstate⟩, hfails⟩ := hfailed fault m hrun
    exact ⟨⟨hregs, hstate⟩, hfails⟩

/-- Writes one of two slots, then calls a native body that never answers in a loop. -/
def failingLoop : Program where
  code := {
    target := .volumes
    regs := #[.bool, .int32]
    slots := 2
    body := [
      .const 0 (.bool true), .const 1 (.int32 7),
      .branch 0 [.write 0 1] [.write 1 1],
      .loop .while [] (some 0) [.call 1 "wait" (fun _ => none) [1]] []] }
  verified := rfl

/-- The loop fails in its native body, after the first slot was written and not the second. -/
theorem run_inBounds_failingLoop :
    let s := ElementState.start #[.int32 1, .int32 2] (some ⟨3, 4, 5⟩)
    (failingLoop.code.slots ≤ s.values.size ∧ failingLoop.code.slots ≤ s.written.size) ∧
      ∃ m, failingLoop.run 1 s = .failed (.native "wait") m ∧ m.state.coord = s.coord ∧
        (m.state.written[0]? = some true ∧ m.state.written[1]? ≠ some true) ∧ m.state.values[1]? = s.values[1]? ∧
        ∃ before step, failingLoop.steps 1 s = before ++ [step] ∧ step.FailsIn "wait" := by
  intro s
  have hsize : failingLoop.code.slots ≤ s.values.size ∧ failingLoop.code.slots ≤ s.written.size := by decide
  have htrue : (Value.bool true).truthy = true := rfl
  obtain ⟨m, hrun⟩ : ∃ m, failingLoop.run 1 s = .failed (.native "wait") m := by
    simp [failingLoop, run, start, Instr.runAll, Instr.run, runLoop, runTest, Machine.set, Machine.withReg,
      Machine.withRegs, Machine.fetch, Machine.callNative, htrue]
  have hwrites (slot : Nat) : (∃ step ∈ failingLoop.steps 1 s, step.Writes slot) ↔ slot = 0 := by
    simp [failingLoop, steps, start, Step.Writes, Instr.tracedAll, Instr.traced, Traced.bind, Traced.one, Traced.pure,
      Traced.loop, Traced.test, Traced.look, Instr.run, Machine.set, Machine.withReg, Machine.withRegs, Machine.fetch,
      Machine.callNative, htrue]
    exact eq_comm
  obtain ⟨-, -, hfailed⟩ := run_inBounds failingLoop s hsize.1 hsize.2 1
  obtain ⟨⟨-, hchanged⟩, name, before, step, hname, hlast, hfails⟩ := hfailed _ m hrun
  obtain rfl : "wait" = name := Fault.native.inj hname
  refine ⟨hsize, m, hrun, hchanged.coord, ⟨?_, ?_⟩, ?_, before, step, hlast, hfails⟩
  · exact (hchanged.written 0).mpr (.inr ((hwrites 0).mpr rfl))
  · rw [ne_eq, hchanged.written, hwrites]
    decide
  · exact hchanged.values 1 fun step hstep hstep' => absurd ((hwrites 1).mp ⟨step, hstep, hstep'⟩) (by decide)

end Program

end Elementwise
