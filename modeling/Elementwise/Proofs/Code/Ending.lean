import Elementwise.Proofs.Code.Simulation

/-!
# How runs end

What a run that ends shows to the outside: the element, the native calls, and the fault if there is
one. Fuel only bounds how long a run may take: a run that ends with some fuel ends in the same way
with more, so a program has at most one ending on an element.
-/

namespace Elementwise

/-- How a run ends, as seen from outside. -/
structure Ending where
  fault : Option Fault
  element : ElementState
  /-- The native calls that were made, the last one first. -/
  calls : List NativeCall

/-- The ending of an outcome; there is none if the fuel was used up. -/
def Outcome.ending? {α : Type} : Outcome α → Option Ending
  | done _ m => some ⟨none, m.state, m.calls⟩
  | failed fault m => some ⟨some fault, m.state, m.calls⟩
  | exhausted => none

/-- What is seen of the element that a run ended on, if it did so without a fault. -/
def Ending.seen? {β : Type} (see : ElementState → β) (o : Option Ending) : Option β :=
  o.bind fun ending => if ending.fault = none then some (see ending.element) else none

/-- What was seen of an element shows that a run ended on one. -/
theorem Ending.exists_of_seen? {β : Type} {see : ElementState → β} {o : Option Ending} {b : β}
    (h : seen? see o = some b) : ∃ s calls, o = some ⟨none, s, calls⟩ ∧ see s = b := by
  obtain ⟨⟨fault, s, calls⟩, hending, hseen⟩ := Option.bind_eq_some_iff.mp h
  split at hseen
  · next hfault => exact ⟨s, calls, hfault ▸ hending, Option.some.inj hseen⟩
  · cases hseen

/-- What was seen of a result shows that there is one. -/
theorem exists_ok_of_map {ε α β : Type} {x : Except ε α} {see : α → β} {b : β} (h : x.toOption.map see = some b) :
    ∃ a, x = .ok a ∧ see a = b := by
  cases x with
  | error e => cases h
  | ok a => exact ⟨a, rfl, Option.some.inj h⟩

theorem exists_ok_of_isOk {ε α : Type} {x : Except ε α} (h : x.isOk = true) : ∃ a, x = .ok a := by
  cases x with
  | error e => cases h
  | ok a => exact ⟨a, rfl⟩

/-- The texts of the slots of an element. -/
def ElementState.texts (s : ElementState) : List String := s.values.toList.map Value.text

/-- The slots of an element: which were written, and the numbers in them. -/
def ElementState.slots (s : ElementState) : List Bool × List Scalar :=
  (s.written.toList, s.values.toList.map Value.number)

/-- The flag and the integer in a slot, as they are seen. -/
theorem ElementState.read?_of_slots {s : ElementState} {written : List Bool} {numbers : List Scalar}
    (h : s.slots = (written, numbers)) : (∀ slot : Nat, s.written[slot]? = written[slot]?) ∧
      ∀ (slot : Nat) n, numbers[slot]? = some (.int32 n) → s.read? slot = some (.int32 n) := by
  obtain ⟨rfl, rfl⟩ := Prod.mk.inj h
  refine ⟨fun slot => Array.getElem?_toList.symm, fun slot n hslot => ?_⟩
  rw [List.getElem?_map, Option.map_eq_some_iff] at hslot
  obtain ⟨v, hv, hnumber⟩ := hslot
  have hint : v = .int32 n := by cases v <;> simp_all [Value.number]
  rw [read?, ← Array.getElem?_toList, hv, hint]

/-- A program on an element comes to an end, in the given way. -/
def Program.EndsWith (p : Program) (state : ElementState) (ending : Ending) : Prop :=
  ∃ fuel, (p.run fuel state).ending? = some ending

namespace Traced

variable {α β : Type}

/-- The second run ends as the first one does, wherever that has enough fuel. -/
def Extends (t' t : Traced α) : Prop := ∀ m, t.run m ≠ .exhausted → t'.run m = t.run m

namespace Extends

theorem refl (t : Traced α) : t.Extends t := fun _ _ => rfl

theorem bind {t t' : Traced α} {k k' : α → Traced β} (h : t'.Extends t)
    (hk : ∀ a, (k' a).Extends (k a)) : (t'.bind k').Extends (t.bind k) := by
  intro m hm
  simp only [Traced.bind] at hm ⊢
  have hne : t.run m ≠ .exhausted := fun hex => hm (by rw [hex])
  rw [h m hne]
  cases hrun : t.run m with
  | done a n =>
    rw [hrun] at hm
    exact hk a n hm
  | failed fault n => rfl
  | exhausted => rfl

end Extends

end Traced

namespace Instr

/-- Code with more fuel ends as it does with less. -/
theorem tracedAll_extends (types : Array Ty) {fuel fuel' : Nat} (hfuel : fuel ≤ fuel') (code : List Instr) :
    (tracedAll types fuel' code).Extends (tracedAll types fuel code) := by
  have hcomposes : Traced.Composes fun _ t t' => t'.Extends t := ⟨fun _ => .refl _, .bind⟩
  refine hcomposes.tracedAll types hfuel (fun _ _ hm => absurd rfl hm) (fun i _ hleaf m _ => ?_)
    fun _ _ _ _ _ _ => .refl _
  cases i <;> first | rfl | simp [bodies] at hleaf

end Instr

namespace Program

variable {p : Program} {state : ElementState}

/-- More fuel keeps the ending of a run. -/
theorem ending?_run_le {fuel fuel' : Nat} (hfuel : fuel ≤ fuel') {ending : Ending}
    (h : (p.run fuel state).ending? = some ending) : (p.run fuel' state).ending? = some ending := by
  have hne : p.run fuel state ≠ .exhausted := fun hex => by rw [hex] at h; cases h
  have hextends := Instr.tracedAll_extends p.code.regs hfuel p.code.body (p.start state)
  rw [Instr.run_tracedAll, Instr.run_tracedAll] at hextends
  rw [run, hextends hne]
  exact h

/-- A program has at most one ending on an element. -/
theorem EndsWith.unique {ending ending' : Ending} (h : p.EndsWith state ending)
    (h' : p.EndsWith state ending') : ending = ending' := by
  obtain ⟨fuel, hfuel⟩ := h
  obtain ⟨fuel', hfuel'⟩ := h'
  have hmax := ending?_run_le (Nat.le_max_left fuel fuel') hfuel
  have hmax' := ending?_run_le (Nat.le_max_right fuel fuel') hfuel'
  exact Option.some.inj (hmax.symm.trans hmax')

end Program

end Elementwise
