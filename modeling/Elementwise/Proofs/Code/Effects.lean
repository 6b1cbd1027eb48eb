import Elementwise.Proofs.Code.Simulation

/-!
# What one instruction does

An instruction without bodies changes no register but its own, and what it does depends only on the
registers it reads and on the element. One without effects only writes its register.
-/

namespace Elementwise

/-- Two machines with the same element and calls, and the same values in some registers. -/
structure Machine.SameOn (p : Reg → Prop) (m m' : Machine) : Prop where
  state : m.state = m'.state
  calls : m.calls = m'.calls
  size : m.regs.size = m'.regs.size
  regs : ∀ r, p r → m'.regs[r]? = m.regs[r]?

/-- What holds of a run's end, if it ends. -/
def Outcome.Post {α : Type} (Q : α → Machine → Prop) : Outcome α → Prop
  | done a m => Q a m
  | _ => True

theorem Outcome.Post.mono {α : Type} {Q Q' : α → Machine → Prop} {o : Outcome α} (h : o.Post Q)
    (hQ : ∀ a m, Q a m → Q' a m) : o.Post Q' := by
  cases o with
  | done a m => exact hQ a m h
  | failed | exhausted => trivial

theorem Outcome.Post.trivial {α : Type} (o : Outcome α) : o.Post fun _ _ => True := by cases o <;> exact True.intro

/-- A run that ended, ended in a machine of which its postcondition holds. -/
theorem Outcome.Post.of_done {α : Type} {Q : α → Machine → Prop} {o : Outcome α} (h : o.Post Q) {a : α}
    {m : Machine} (hdone : o = .done a m) : Q a m := by
  subst hdone
  exact h

namespace Machine

variable {p : Reg → Prop} {m m' : Machine}

/-- After a register is written, control goes on with its new value. -/
theorem post_set {Q : Flow → Machine → Prop} {d : Reg} {v : Value}
    (h : d < m.regs.size → Q .next { m with regs := m.regs.setIfInBounds d v }) : (m.set d v).Post Q := by
  unfold Machine.set
  split
  · next hd => exact h hd
  · trivial

/-- Going on with the value of a register. -/
theorem post_withReg {Q : Flow → Machine → Prop} {r : Reg} {k : Value → Outcome Flow}
    (h : ∀ v, m.regs[r]? = some v → (k v).Post Q) : (m.withReg r k).Post Q := by
  unfold Machine.withReg
  cases hr : m.regs[r]? with
  | none => trivial
  | some v => exact h v hr

/-- Going on with the values of registers. -/
theorem post_withRegs {Q : Flow → Machine → Prop} {rs : List Reg} {k : List Value → Outcome Flow}
    (h : ∀ vs, m.fetch rs = .ok vs → (k vs).Post Q) : (m.withRegs rs k).Post Q := by
  unfold Machine.withRegs
  cases hrs : m.fetch rs with
  | error r => trivial
  | ok vs => exact h vs hrs

/-- After a native call, its answer is in the register. -/
theorem post_callNative {Q : Flow → Machine → Prop} {d : Reg} {name : String} {body : NativeBody}
    {args : List Value}
    (h : ∀ result, body args = some result → d < m.regs.size →
      Q .next { m with
        regs := m.regs.setIfInBounds d result.value
        calls := ⟨name, args, result.printed⟩ :: m.calls }) :
    (m.callNative d name body args).Post Q := by
  unfold Machine.callNative
  cases hbody : body args with
  | none => trivial
  | some result => exact post_set fun hd => h result hbody hd

/-- Machines that are the same in registers give the same answer when these are fetched. -/
theorem SameOn.fetch (h : SameOn p m m') {rs : List Reg} (hrs : ∀ r ∈ rs, p r) :
    m'.fetch rs = m.fetch rs := by
  induction rs with
  | nil => rfl
  | cons r rest ih =>
    have hrest := ih fun x hx => hrs x (List.mem_cons_of_mem _ hx)
    simp only [Machine.fetch, hrest, h.regs r (hrs r List.mem_cons_self)]

/-- Writing one value into one register of both makes them the same there too. -/
theorem SameOn.set (h : SameOn p m m') (d : Reg) (v : Value) :
    (m.set d v).Agree (SameOn fun r => p r ∨ some d = some r) (m'.set d v) := by
  simp only [Machine.set, ← h.size]
  split
  · refine .done _ ⟨h.state, h.calls, by simpa using h.size, fun r hr => ?_⟩
    by_cases hd : d = r
    · subst hd
      simp [Array.getElem?_setIfInBounds, h.size]
    · simpa [Array.getElem?_setIfInBounds, hd] using h.regs r (hr.resolve_right (by simpa using hd))
  · exact .failed _ h.state h.calls

/-- Going on with the value of a register that is the same in both. -/
theorem SameOn.withReg {tied : Machine → Machine → Prop} (h : SameOn p m m') {r : Reg} (hr : p r)
    {k k' : Value → Outcome Flow} (hk : ∀ v, (k v).Agree tied (k' v)) :
    (m.withReg r k).Agree tied (m'.withReg r k') := by
  simp only [Machine.withReg, h.regs r hr]
  cases m.regs[r]? with
  | none => exact .failed _ h.state h.calls
  | some v => exact hk v

/-- Going on with the values of registers that are the same in both. -/
theorem SameOn.withRegs {tied : Machine → Machine → Prop} (h : SameOn p m m') {rs : List Reg}
    (hrs : ∀ r ∈ rs, p r) {k k' : List Value → Outcome Flow} (hk : ∀ vs, (k vs).Agree tied (k' vs)) :
    (m.withRegs rs k).Agree tied (m'.withRegs rs k') := by
  simp only [Machine.withRegs, h.fetch hrs]
  cases m.fetch rs with
  | error r => exact .failed _ h.state h.calls
  | ok vs => exact hk vs

/-- Calling a native body on the same arguments. -/
theorem SameOn.callNative (h : SameOn p m m') (d : Reg) (name : String) (body : NativeBody)
    (args : List Value) :
    (m.callNative d name body args).Agree (SameOn fun r => p r ∨ some d = some r)
      (m'.callNative d name body args) := by
  simp only [Machine.callNative, h.calls]
  cases body args with
  | none => exact .failed _ h.state rfl
  | some result =>
    have hcalled (calls : List NativeCall) : SameOn p { m with calls } { m' with calls } :=
      ⟨h.state, rfl, h.size, h.regs⟩
    exact (hcalled _).set d result.value

end Machine

namespace Instr

variable {types : Array Ty} {fuel : Nat} {i : Instr} {p : Reg → Prop} {m m' : Machine}

/-- An instruction without bodies does the same on machines that are the same where it reads, and
writes the same into its register. -/
theorem run_sameOn (hleaf : i.bodies = []) (h : m.SameOn p m') (huses : ∀ r ∈ i.uses, p r) :
    (i.run types fuel m).Agree (Machine.SameOn fun r => p r ∨ i.dst? = some r) (i.run types fuel m') := by
  cases i with
  | const d v => exact h.set d v
  | copy d s => exact h.withReg (huses s (by simp [uses])) fun v => h.set d v
  | binary d op l r =>
    exact h.withReg (huses l (by simp [uses])) fun a => h.withReg (huses r (by simp [uses])) fun b =>
      h.set d (Value.binary op a b)
  | unary d op s => exact h.withReg (huses s (by simp [uses])) fun v => h.set d (Value.unary op v)
  | convert d s => exact h.withReg (huses s (by simp [uses])) fun v => h.set d _
  | pack d items => exact h.withRegs (fun r hr => huses r hr) fun vs => h.set d _
  | extract d s j =>
    exact h.withReg (huses j (by simp [uses])) fun x => h.withReg (huses s (by simp [uses])) fun v =>
      h.set d _
  | insert d s j c =>
    exact h.withReg (huses j (by simp [uses])) fun x => h.withReg (huses s (by simp [uses])) fun v =>
      h.withReg (huses c (by simp [uses])) fun y => h.set d _
  | read d slot =>
    rw [run, run, h.state]
    exact h.set d _
  | write slot s =>
    refine h.withReg (huses s (by simp [uses])) fun v => .done _ ⟨?_, h.calls, h.size, fun r hr => ?_⟩
    · rw [h.state]
    · exact h.regs r (hr.resolve_right (by simp [dst?]))
  | intrinsic d op =>
    rw [run, run, h.state]
    exact h.set d _
  | call d name body args => exact h.withRegs (fun r hr => huses r hr) fun vs => h.callNative d name body vs
  | branch c t e => simp [bodies] at hleaf
  | loop k t c b s => simp [bodies] at hleaf
  | jump word => exact .done _ ⟨h.state, h.calls, h.size, fun r hr => h.regs r (hr.resolve_right (by simp [dst?]))⟩

/-- The registers after an instruction without bodies: as many as before, and all but its own as they
were. -/
def Keeps (i : Instr) (m n : Machine) : Prop :=
  n.regs.size = m.regs.size ∧ ∀ r, i.dst? ≠ some r → n.regs[r]? = m.regs[r]?

/-- What an instruction without bodies does if it ends: control goes on unless it is a jump, no register changes but
its own, and the element changes only by a write. -/
structure Effect (i : Instr) (m : Machine) (flow : Flow) (n : Machine) : Prop where
  flow : i.isJump = false → flow = .next
  keeps : i.Keeps m n
  state : n.state = m.state ∨ ∃ slot src v, i = write slot src ∧ n.state = m.state.write slot v

/-- An instruction without bodies has its effect, and no other. -/
theorem run_effect (hleaf : i.bodies = []) : (i.run types fuel m).Post (i.Effect m) := by
  have hkeeps {d : Reg} (hd : i.dst? = some d) (v : Value) (calls : List NativeCall) :
      i.Effect m .next { m with regs := m.regs.setIfInBounds d v, calls } := by
    refine ⟨fun _ => rfl, ⟨by simp, fun r hr => ?_⟩, .inl rfl⟩
    have hne : d ≠ r := fun h => hr (h ▸ hd)
    simp [hne]
  have hset {d : Reg} (hd : i.dst? = some d) (v : Value) : (m.set d v).Post (i.Effect m) :=
    Machine.post_set fun _ => hkeeps hd v m.calls
  cases i with
  | const d v => exact hset rfl v
  | copy d s => exact Machine.post_withReg fun v _ => hset rfl v
  | binary d op l r => exact Machine.post_withReg fun a _ => Machine.post_withReg fun b _ => hset rfl _
  | unary d op s | convert d s => exact Machine.post_withReg fun v _ => hset rfl _
  | pack d items => exact Machine.post_withRegs fun vs _ => hset rfl _
  | extract d s j => exact Machine.post_withReg fun x _ => Machine.post_withReg fun v _ => hset rfl _
  | insert d s j c =>
    exact Machine.post_withReg fun x _ => Machine.post_withReg fun v _ => Machine.post_withReg fun y _ => hset rfl _
  | read d slot => exact hset rfl _
  | write slot s => exact Machine.post_withReg fun v _ => ⟨fun _ => rfl, ⟨rfl, fun _ _ => rfl⟩, .inr ⟨slot, s, v, rfl, rfl⟩⟩
  | intrinsic d op => exact hset rfl _
  | call d name body args => exact Machine.post_withRegs fun vs _ => Machine.post_callNative fun _ _ _ => hkeeps rfl _ _
  | branch | loop => simp [bodies] at hleaf
  | jump word => exact ⟨by simp [isJump], ⟨rfl, fun _ _ => rfl⟩, .inl rfl⟩

/-- Registers that exist can be fetched. -/
theorem exists_fetch {rs : List Reg} (h : ∀ r ∈ rs, r < m.regs.size) : ∃ vs, m.fetch rs = .ok vs := by
  induction rs with
  | nil => exact ⟨[], rfl⟩
  | cons r rest ih =>
    obtain ⟨vs, hvs⟩ := ih fun x hx => h x (List.mem_cons_of_mem _ hx)
    have hlt := h r List.mem_cons_self
    exact ⟨m.regs[r] :: vs, by simp only [Machine.fetch, Array.getElem?_eq_getElem hlt, hvs]⟩

/-- An instruction without effects, on registers that exist, writes its register and nothing else. -/
theorem run_pure (types : Array Ty) (fuel : Nat) (hpure : i.hasEffects = false)
    (hregs : ∀ r ∈ i.dst?.toList ++ i.uses, r < m.regs.size) :
    ∃ d v, i.dst? = some d ∧
      i.run types fuel m = .done .next { m with regs := m.regs.setIfInBounds d v } := by
  have hreg {r : Reg} (hr : r ∈ i.uses) : ∃ v, m.regs[r]? = some v :=
    ⟨_, Array.getElem?_eq_getElem (hregs r (List.mem_append_right _ hr))⟩
  have hset {d : Reg} (hd : i.dst? = some d) (v : Value) :
      m.set d v = .done .next { m with regs := m.regs.setIfInBounds d v } :=
    if_pos (hregs d (List.mem_append_left _ (by simp [hd])))
  cases i with
  | const d v => exact ⟨d, v, rfl, hset rfl v⟩
  | copy d s =>
    obtain ⟨v, hv⟩ := hreg (r := s) (by simp [uses])
    exact ⟨d, v, rfl, by simp only [run, Machine.withReg, hv]; exact hset rfl _⟩
  | binary d op l r =>
    obtain ⟨a, ha⟩ := hreg (r := l) (by simp [uses])
    obtain ⟨b, hb⟩ := hreg (r := r) (by simp [uses])
    exact ⟨d, _, rfl, by simp only [run, Machine.withReg, ha, hb]; exact hset rfl _⟩
  | unary d op s | convert d s =>
    obtain ⟨v, hv⟩ := hreg (r := s) (by simp [uses])
    exact ⟨d, _, rfl, by simp only [run, Machine.withReg, hv]; exact hset rfl _⟩
  | pack d items =>
    obtain ⟨vs, hvs⟩ : ∃ vs, m.fetch items = .ok vs :=
      exists_fetch fun r hr => hregs r (List.mem_append_right _ hr)
    exact ⟨d, _, rfl, by simp only [run, Machine.withRegs, hvs]; exact hset rfl _⟩
  | extract d s j =>
    obtain ⟨v, hv⟩ := hreg (r := s) (by simp [uses])
    obtain ⟨x, hx⟩ := hreg (r := j) (by simp [uses])
    exact ⟨d, _, rfl, by simp only [run, Machine.withReg, hv, hx]; exact hset rfl _⟩
  | insert d s j c =>
    obtain ⟨v, hv⟩ := hreg (r := s) (by simp [uses])
    obtain ⟨x, hx⟩ := hreg (r := j) (by simp [uses])
    obtain ⟨y, hy⟩ := hreg (r := c) (by simp [uses])
    exact ⟨d, _, rfl, by simp only [run, Machine.withReg, hv, hx, hy]; exact hset rfl _⟩
  | read d | intrinsic d => exact ⟨d, _, rfl, hset rfl _⟩
  | write | call | branch | loop | jump => simp [hasEffects] at hpure

end Instr

end Elementwise
