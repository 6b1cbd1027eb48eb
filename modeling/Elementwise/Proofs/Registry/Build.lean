import Elementwise.Proofs.Diagnostic.Sink
import Elementwise.Proofs.Registry.Scan

/-!
# Slots are positions

However a registry was built, an entry stands at the position of its slot, so what generation finds under
a name is what a program has in that slot.
-/

namespace Elementwise.Registry

/-- Each entry stands at the position of its slot. -/
def Numbered (r : Registry) : Prop := ∀ i name e, r.entries.at? i = some (name, e) → e.index = i

variable {r : Registry} {name : String}

/-- The entry of a name is the one in its slot. -/
theorem Numbered.list_getElem? (h : r.Numbered) {e : Entry} (hget : r.get? name = some e) :
    r.list[e.index]? = some e := by
  obtain ⟨i, hi⟩ := Table.exists_at?_of_get? hget
  rw [h i name e hi, list, Table.values, List.getElem?_map]
  exact congrArg (Option.map Prod.snd) hi

/-- Recording a use keeps entries at their slots. -/
theorem Numbered.register (h : r.Numbered) (name : String) (ty : Ty) (writable : Bool) :
    (r.register name ty writable).2.Numbered := by
  intro i other e hat
  rcases Table.at?_insert hat with hold | ⟨-, rfl, ⟨old, hi, hget⟩ | ⟨rfl, hget⟩⟩
  · exact h i other e hold
  · have hindex := h i name old hi
    simpa [get?, hget] using hindex
  · simp [get?, hget, size]

theorem target_register (name : String) (ty : Ty) (writable : Bool) :
    (r.register name ty writable).2.target = r.target := rfl

/-- One use keeps the target and the slots, and takes no error back. -/
theorem addUse_keeps (spanOf : NodeId → Option Span) (h : r.Numbered) (sink : Sink) (u : FieldUse) :
    (addUse spanOf (r, sink) u).1.Numbered ∧ (addUse spanOf (r, sink) u).1.target = r.target ∧
      sink.errors ≤ (addUse spanOf (r, sink) u).2.errors := by
  have hnumbered := h.register u.name u.ty u.writable
  have htarget := target_register (r := r) u.name u.ty u.writable
  unfold addUse
  dsimp only
  split
  · exact ⟨h, rfl, Sink.errors_le_push⟩
  · split
    · next heq =>
      rw [heq] at hnumbered htarget
      exact ⟨hnumbered, htarget, Nat.le_refl _⟩
    · next heq =>
      rw [heq] at hnumbered htarget
      exact ⟨hnumbered, htarget, Sink.errors_le_push⟩

/-- Uses one after another keep the target and the slots, and take no error back. -/
theorem foldl_addUse_keeps (spanOf : NodeId → Option Span) (h : r.Numbered) (sink : Sink) (uses : List FieldUse) :
    (uses.foldl (addUse spanOf) (r, sink)).1.Numbered ∧ (uses.foldl (addUse spanOf) (r, sink)).1.target = r.target ∧
      sink.errors ≤ (uses.foldl (addUse spanOf) (r, sink)).2.errors := by
  induction uses generalizing r sink with
  | nil => exact ⟨h, rfl, Nat.le_refl _⟩
  | cons u rest ih =>
    obtain ⟨hnumbered, htarget, herrors⟩ := addUse_keeps spanOf h sink u
    obtain ⟨hnumbered', htarget', herrors'⟩ := ih hnumbered (addUse spanOf (r, sink) u).2
    exact ⟨hnumbered', htarget'.trans htarget, Nat.le_trans herrors herrors'⟩

/-- A registry that was built has its entries at their slots. -/
theorem build_keeps (t : Tree) (target : Target) (map : SourceMap) (sink : Sink) :
    (build t target map sink).1.Numbered ∧ (build t target map sink).1.target = target ∧
      sink.errors ≤ (build t target map sink).2.errors := by
  rw [build_eq]
  exact foldl_addUse_keeps _ (fun i name e h => by simp [Table.at?] at h) sink _

end Elementwise.Registry
