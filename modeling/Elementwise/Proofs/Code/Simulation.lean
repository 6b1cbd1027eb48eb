import Elementwise.Proofs.Code.Trace

/-!
# Code that follows other code

Two pieces of code are run side by side, each with the registers it has written so far. A tie
between the two machines is kept if the code on the right follows the code on the left: wherever the
left run reads only what it wrote, so does the right one, both leave in the same way, and they are
tied again. Runs in sequence, branches and loops inherit this from their parts.
-/

namespace Elementwise

/-- Two outcomes that look the same from outside: both end with one result and tied machines, or both
fail with one fault on one element after the same calls, or both use up their fuel. -/
inductive Outcome.Agree {α : Type} (tied : Machine → Machine → Prop) : Outcome α → Outcome α → Prop
  | done (a : α) {m m' : Machine} (h : tied m m') : Agree tied (.done a m) (.done a m')
  | failed (fault : Fault) {m m' : Machine} (hstate : m.state = m'.state) (hcalls : m.calls = m'.calls) :
      Agree tied (.failed fault m) (.failed fault m')
  | exhausted : Agree tied .exhausted .exhausted

/-- How two machines are tied together, each with the registers written so far. -/
abbrev Tie := List Reg → Machine → List Reg → Machine → Prop

/-- The second run keeps up with the first one, as long as that reads only what it wrote. -/
def Follows {α : Type} (R : Tie) (t t' : Traced α) : Prop :=
  ∀ W m W' m', R W m W' m' → ReadsWritten W (t.steps m) →
    ReadsWritten W' (t'.steps m') ∧
      (t.run m).Agree (fun n n' => R (writtenAfter W (t.steps m)) n (writtenAfter W' (t'.steps m')) n')
        (t'.run m')

namespace Traced

variable {α β γ : Type}

theorem pure_bind (a : α) (k : α → Traced β) : (pure a).bind k = k a := by
  simp [pure, bind]

/-- Going on in two stages is going on in one. -/
theorem bind_assoc (t : Traced α) (k : α → Traced β) (l : β → Traced γ) :
    (t.bind k).bind l = t.bind fun a => (k a).bind l := by
  simp only [bind, mk.injEq]
  constructor <;> funext m <;> cases t.run m <;> simp

end Traced

namespace Follows

variable {α β : Type} {R : Tie}

theorem pure (a : α) : Follows R (Traced.pure a) (Traced.pure a) :=
  fun _ _ _ _ hR _ => ⟨trivial, .done a hR⟩

theorem bind {t t' : Traced α} {k k' : α → Traced β} (h : Follows R t t')
    (hk : ∀ a, Follows R (k a) (k' a)) : Follows R (t.bind k) (t'.bind k') := by
  intro W m W' m' hR hreads
  simp only [Traced.bind] at hreads ⊢
  rw [readsWritten_append] at hreads
  rw [readsWritten_append]
  obtain ⟨hreads', hagree⟩ := h W m W' m' hR hreads.1
  generalize t.run m = o at hagree hreads ⊢
  generalize t'.run m' = o' at hagree ⊢
  cases hagree with
  | done a hR' =>
    obtain ⟨hrest, hagree⟩ := hk a _ _ _ _ hR' hreads.2
    simpa using ⟨⟨hreads', hrest⟩, hagree⟩
  | failed fault hstate hcalls => exact ⟨⟨hreads', trivial⟩, .failed fault hstate hcalls⟩
  | exhausted => exact ⟨⟨hreads', trivial⟩, .exhausted⟩

theorem composes : Traced.Composes fun _ => Follows R := ⟨pure, bind⟩

/-- Loops follow if their tests, bodies and steps do. -/
theorem loop {test test' : Traced (Option Bool)} {body body' step step' : Traced Flow}
    (htest : Follows R test test') (hbody : Follows R body body') (hstep : Follows R step step')
    (fuel : Nat) (first : Bool) :
    Follows R (Traced.loop test body step fuel first) (Traced.loop test' body' step' fuel first) := by
  have h := composes.loop (n := 0) (fun _ _ _ _ _ _ _ => ⟨trivial, .exhausted⟩) htest hbody hstep fuel first
  rwa [Nat.zero_add] at h

/-- Steps that look at registers follow if both sides see the same there and do the same with it. -/
theorem one {run run' : Machine → Outcome α} {i i' : Instr} {used : List Reg}
    (huses : i.uses = used) (huses' : i'.uses = used) (hdst : i.dst? = none) (hdst' : i'.dst? = none)
    (hsee : ∀ {W m W' m'}, R W m W' m' → ∀ r ∈ used, r ∈ W → r ∈ W' ∧ m'.regs[r]? = m.regs[r]?)
    (hrun : ∀ {W m W' m'}, R W m W' m' → (∀ r ∈ used, m'.regs[r]? = m.regs[r]?) →
      (run m).Agree (fun n n' => R W n W' n') (run' m')) :
    Follows R (Traced.one i run) (Traced.one i' run') := by
  intro W m W' m' hR hreads
  simp only [Traced.one, ReadsWritten, writtenAfter, huses, huses', hdst, hdst', and_true] at hreads ⊢
  have hboth (r : Reg) (hr : r ∈ used) := hsee hR r hr (hreads r hr)
  exact ⟨fun r hr => (hboth r hr).1, hrun hR fun r hr => (hboth r hr).2⟩

/-- Tests of loops follow if their instructions do, and both sides see the same condition. -/
theorem test {instrs instrs' : Traced Flow} {self self' : Instr} {condition : Option Reg}
    (h : Follows R instrs instrs') (huses : self.uses = condition.toList)
    (huses' : self'.uses = condition.toList) (hdst : self.dst? = none) (hdst' : self'.dst? = none)
    (hsee : ∀ {W m W' m'}, R W m W' m' → ∀ r ∈ condition.toList, r ∈ W → r ∈ W' ∧ m'.regs[r]? = m.regs[r]?)
    (hvisible : ∀ {W m W' m'}, R W m W' m' → m.state = m'.state ∧ m.calls = m'.calls) :
    Follows R (Traced.test self condition instrs) (Traced.test self' condition instrs') := by
  have hlook : Follows R (Traced.one self (Traced.look condition))
      (Traced.one self' (Traced.look condition)) := by
    refine one huses huses' hdst hdst' hsee fun {W m W' m'} hR hregs => ?_
    cases condition with
    | none => exact .done _ hR
    | some r =>
      simp only [Traced.look, hregs r (by simp)]
      cases m.regs[r]? with
      | none => exact .failed _ (hvisible hR).1 (hvisible hR).2
      | some v => exact .done _ hR
  exact composes.test h hlook

end Follows

namespace Instr

/-- Code after code in sequence. -/
theorem tracedAll_append (types : Array Ty) (fuel : Nat) (a b : List Instr) :
    tracedAll types fuel (a ++ b) = (tracedAll types fuel a).bind fun
      | .next => tracedAll types fuel b
      | .jump word => Traced.pure (.jump word) := by
  induction a with
  | nil => exact (Traced.pure_bind _ _).symm
  | cons i rest ih =>
    simp only [List.cons_append, tracedAll, ih, Traced.bind_assoc]
    congr 1
    funext flow
    cases flow with
    | next => rfl
    | jump word => exact (Traced.pure_bind _ _).symm

/-- A single instruction as code. -/
theorem tracedAll_singleton (types : Array Ty) (fuel : Nat) (i : Instr) :
    tracedAll types fuel [i] = i.traced types fuel := by
  simp only [tracedAll, Traced.bind, Traced.pure]
  congr 1 <;> funext m
  · rcases (i.traced types fuel).run m with ⟨_ | _, m⟩ | _ | _ <;> rfl
  · rcases (i.traced types fuel).run m with ⟨_ | _, m⟩ | _ | _ <;> simp

end Instr

namespace Follows

variable {R : Tie} {types : Array Ty} {fuel : Nat}

theorem append {a a' b b' : List Instr}
    (ha : Follows R (Instr.tracedAll types fuel a) (Instr.tracedAll types fuel a'))
    (hb : Follows R (Instr.tracedAll types fuel b) (Instr.tracedAll types fuel b')) :
    Follows R (Instr.tracedAll types fuel (a ++ b)) (Instr.tracedAll types fuel (a' ++ b')) := by
  rw [Instr.tracedAll_append, Instr.tracedAll_append]
  refine bind ha fun flow => ?_
  cases flow with
  | next => exact hb
  | jump word => exact pure _

theorem cons {i : Instr} {a' rest rest' : List Instr}
    (hi : Follows R (i.traced types fuel) (Instr.tracedAll types fuel a'))
    (hrest : Follows R (Instr.tracedAll types fuel rest) (Instr.tracedAll types fuel rest')) :
    Follows R (Instr.tracedAll types fuel (i :: rest)) (Instr.tracedAll types fuel (a' ++ rest')) := by
  rw [← Instr.tracedAll_singleton] at hi
  exact append hi hrest

end Follows

end Elementwise
