import Elementwise.Proofs.Code.Ending
import Elementwise.Proofs.Optimize.Constants

/-!
# What a run does to an element

An element changes by the writes of the code alone: it keeps its slots, and a slot that no instruction
writes is neither changed nor marked as written. One instruction does no more than that, so a run does not.
-/

namespace Elementwise

namespace ElementState

/-- What an element may have become when only some slots were written. -/
structure Evolves (S : Nat → Prop) (s s' : ElementState) : Prop where
  values_size : s'.values.size = s.values.size
  written_size : s'.written.size = s.written.size
  values : ∀ slot, ¬S slot → s'.values[slot]? = s.values[slot]?
  written : ∀ slot, ¬S slot → s'.written[slot]? = s.written[slot]?

namespace Evolves

variable {S : Nat → Prop} {s s₁ s₂ : ElementState}

theorem refl (s : ElementState) : Evolves S s s := ⟨rfl, rfl, fun _ _ => rfl, fun _ _ => rfl⟩

theorem trans (h : Evolves S s s₁) (h' : Evolves S s₁ s₂) : Evolves S s s₂ where
  values_size := h'.values_size.trans h.values_size
  written_size := h'.written_size.trans h.written_size
  values slot hslot := (h'.values slot hslot).trans (h.values slot hslot)
  written slot hslot := (h'.written slot hslot).trans (h.written slot hslot)

/-- One of the slots was written. -/
theorem write {slot : Nat} (hslot : S slot) (v : Value) : Evolves S s (s.write slot v) := by
  unfold ElementState.write
  split
  · have hne (other : Nat) (hother : ¬S other) : slot ≠ other := fun heq => hother (heq ▸ hslot)
    constructor
    · simp
    · simp
    · intro other hother
      simp [hne other hother]
    · intro other hother
      simp [hne other hother]
  · exact refl s

end Evolves

end ElementState

namespace Instr

variable {S : Nat → Prop} {types : Array Ty} {fuel : Nat} {i : Instr} {m : Machine}

/-- An instruction without bodies changes at most the slot that it writes. -/
theorem run_evolves (hleaf : i.bodies = []) (hwrites : ∀ slot src, i = write slot src → S slot) :
    (i.run types fuel m).Post fun _ n => m.state.Evolves S n.state := by
  refine (run_effect hleaf).mono fun flow n heffect => ?_
  rcases heffect.state with hstate | ⟨slot, src, v, hi, hstate⟩
  · exact hstate ▸ .refl _
  · exact hstate ▸ .write (hwrites slot src hi) v

end Instr

namespace Traced

variable {S : Nat → Prop} {α β : Type}

/-- A run changes only some slots of an element, from wherever it starts. -/
def Evolves (S : Nat → Prop) (t : Traced α) : Prop :=
  ∀ m : Machine, (t.run m).Post fun _ n => m.state.Evolves S n.state

namespace Evolves

theorem pure (a : α) : Evolves S (.pure a) := fun _ => .refl _

theorem bind {t : Traced α} {k : α → Traced β} (h : t.Evolves S) (hk : ∀ a, (k a).Evolves S) :
    (t.bind k).Evolves S := by
  intro m
  have hpost := h m
  simp only [Traced.bind]
  cases hrun : t.run m with
  | done a n =>
    have hpost' := hk a n
    dsimp only
    cases hrun' : (k a).run n with
    | done b l => exact (hpost.of_done hrun).trans (hpost'.of_done hrun')
    | failed fault l => trivial
    | exhausted => trivial
  | failed fault n => trivial
  | exhausted => trivial

end Evolves

end Traced

namespace Instr

variable {S : Nat → Prop}

/-- A run of code changes only the slots that its instructions write. -/
theorem tracedAll_evolves (types : Array Ty) (fuel : Nat) {code : List Instr}
    (h : ∀ slot src, write slot src ∈ partsAll code → S slot) : (tracedAll types fuel code).Evolves S := by
  have hcomposes : Traced.Composes fun _ t _ => t.Evolves S := ⟨.pure, .bind⟩
  refine hcomposes.tracedAll types (Nat.le_refl fuel) (fun _ _ => trivial) (fun i hi hleaf m => ?_)
    fun i _ _ α run hlooks m => ?_
  · exact run_evolves hleaf fun slot src heq => h slot src (heq ▸ hi)
  · rcases hlooks m with ⟨a, ha⟩ | ⟨r, -, -, hr⟩
    · simp only [Traced.one, ha]
      exact .refl _
    · simp only [Traced.one, hr]
      trivial

end Instr

/-- An element that a program ends on differs from the one it started on in the slots that the program
writes, at most. -/
theorem Program.EndsWith.evolves {p : Program} {S : Nat → Prop} {s s' : ElementState} {calls : List NativeCall}
    (h : p.EndsWith s ⟨none, s', calls⟩) (hwrites : ∀ slot src, .write slot src ∈ Instr.partsAll p.code.body → S slot) :
    s.Evolves S s' := by
  obtain ⟨fuel, hending⟩ := h
  have hpost := Instr.tracedAll_evolves p.code.regs fuel hwrites (p.start s)
  rw [Instr.run_tracedAll] at hpost
  rw [Program.run] at hending
  cases hrun : Instr.runAll p.code.regs fuel p.code.body (p.start s) with
  | done flow m =>
    rw [hrun] at hending
    obtain rfl : m.state = s' := congrArg Ending.element (Option.some.inj hending)
    exact hpost.of_done hrun
  | failed fault m =>
    rw [hrun] at hending
    simp [Outcome.ending?] at hending
  | exhausted =>
    rw [hrun] at hending
    cases hending

end Elementwise
