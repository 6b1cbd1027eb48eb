import Elementwise.Proofs.Execute.Binding
import Elementwise.Proofs.Execute.Chunks
import Mathlib.Data.List.Induction

/-!
# What is put back

Of what an element wrote, a field gets the value of the slot that goes to its handle, at this element and nowhere
else. Every entry that is written has a slot of its own, so a field is changed by the slot of its entry, or not at all.
-/

namespace Elementwise

/-- The value that changes of slots put behind a handle: the last one that goes there. -/
def putTo? (targets : List (Option Handle)) (changes : List (Nat × Value)) (i : Handle) : Option Value :=
  (changes.filter fun change => targets[change.1]?.join = some i).getLast?.map Prod.snd

section

variable {targets : List (Option Handle)} {changes : List (Nat × Value)} {i : Handle}

/-- One more change. -/
theorem putTo?_concat (change : Nat × Value) : putTo? targets (changes ++ [change]) i =
    if targets[change.1]?.join = some i then some change.2 else putTo? targets changes i := by
  by_cases h : targets[change.1]?.join = some i <;> simp [putTo?, h]

/-- Nothing is put behind a handle that no slot goes to. -/
theorem putTo?_eq_none (h : ∀ change ∈ changes, targets[change.1]?.join ≠ some i) : putTo? targets changes i = none := by
  have hfilter : (changes.filter fun change => targets[change.1]?.join = some i) = [] := by simpa using h
  rw [putTo?, hfilter]
  rfl

/-- What was written into a slot is put behind the handle that only this slot goes to. -/
theorem putTo?_of_mem {slot : Nat} {v : Value} (hmem : (slot, v) ∈ changes) (htarget : targets[slot]?.join = some i)
    (hunique : ∀ change ∈ changes, targets[change.1]?.join = some i → change.2 = v) :
    putTo? targets changes i = some v := by
  have hne : (changes.filter fun change => targets[change.1]?.join = some i) ≠ [] :=
    List.ne_nil_of_mem (List.mem_filter.mpr ⟨hmem, by simpa using htarget⟩)
  have hlast := List.mem_filter.mp (List.getLast_mem hne)
  rw [putTo?, List.getLast?_eq_some_getLast hne, Option.map_some, hunique _ hlast.1 (by simpa using hlast.2)]

end

section

variable {D E F : Type} [DataSet D E] [FieldData F E] [HasFields D E F] {targets : List (Option Handle)} {i : Handle}

open FieldData HasFields

/-- The fields once an element was put back. -/
theorem at?_scatter (targets : List (Option Handle)) (d : D) (x : E) (state : ElementState) (i : Handle) :
    (table (scatter targets d x state)).at? i =
      ((table d).at? i).map fun entry => (entry.1, put? x (putTo? targets state.changes i) entry.2) := by
  rw [scatter]
  generalize state.changes = changes
  induction changes using List.reverseRecOn with
  | nil => exact (congrFun Option.map_id _).symm
  | append_singleton changes change ih =>
    rw [List.foldl_concat, putTo?_concat]
    cases htarget : targets[change.1]?.join with
    | none => simpa only [htarget, reduceCtorEq, if_false] using ih
    | some j =>
      simp only [htarget, table_write, Table.at?_modifyAt, ih, Option.some.injEq]
      by_cases hj : j = i
      · simp only [hj, if_true, Option.map_map]
        congr 1
        funext entry
        exact congrArg (Prod.mk entry.1) (put_put? x change.2 _ entry.2)
      · simp only [hj, if_false]

/-- The fields once elements were put back. -/
theorem at?_scatterAll (targets : List (Option Handle)) (final : E → ElementState) (d : D) (elements : List E)
    (i : Handle) :
    (table (scatterAll targets final d elements)).at? i = ((table d).at? i).map fun entry =>
      (entry.1, putAll elements (fun x => putTo? targets (final x).changes i) entry.2) := by
  induction elements generalizing d with
  | nil => exact (congrFun Option.map_id _).symm
  | cons x rest ih =>
    have hfirst : scatterAll targets final d (x :: rest) =
        scatterAll targets final (scatter targets d x (final x)) rest := rfl
    rw [hfirst, ih, at?_scatter, Option.map_map]
    rfl

/-- What every write keeps, putting back keeps. -/
theorem scatterAll_induction {P : D → Prop} (hwrite : ∀ d i x v, P d → P (DataSet.write d i x v))
    (targets : List (Option Handle)) (final : E → ElementState) {d : D} (hd : P d) (elements : List E) :
    P (scatterAll targets final d elements) := by
  refine List.foldlRecOn elements _ hd fun d hd x _ => List.foldlRecOn (final x).changes _ hd fun d hd change _ => ?_
  dsimp only
  split
  · exact hwrite d _ x _ hd
  · exact hd

/-- Putting back keeps the names. -/
theorem names_scatterAll (targets : List (Option Handle)) (final : E → ElementState) (d : D) (elements : List E) :
    (table (scatterAll targets final d elements)).names = (table d).names := by
  apply Table.names_congr
  intro i
  rw [at?_scatterAll, Option.map_map]
  rfl

/-- The field of a name once elements were put back. -/
theorem get?_scatterAll (final : E → ElementState) {d : D} (elements : List E) {name : String}
    (hi : (table d).index? name = some i) : (table (scatterAll targets final d elements)).get? name =
      ((table d).get? name).map (putAll elements fun x => putTo? targets (final x).changes i) := by
  have hindex : (table (scatterAll targets final d elements)).index? name = some i := by
    rw [Table.index?_eq_names, names_scatterAll, ← Table.index?_eq_names, hi]
  rw [Table.get?_eq_bind_index?, hindex, Option.bind_some, at?_scatterAll, Table.get?_eq_bind_index?, hi,
    Option.bind_some, Option.map_map, Option.map_map]
  rfl

/-- A state with as many slots as entries has a value in the slot of each. -/
theorem Registry.exists_read? {r : Registry} {slot : Nat} {e : Entry} (he : r.at? slot = some e) {state : ElementState}
    (hsize : state.values.size = r.list.length) : ∃ v, state.read? slot = some v := by
  have hlist : r.list[slot]? = some e := r.getElem?_list slot ▸ he
  exact ⟨_, Array.getElem?_eq_getElem (hsize ▸ (List.getElem?_eq_some_iff.mp hlist).1)⟩

namespace Binding.Binds

variable {r : Registry} {start : D} {b : Binding D} {slot : Nat} {e : Entry} {final : E → ElementState}
  {elements : List E}

/-- Behind the handle of an entry is put what was written into its slot, if the entry is written. -/
theorem putTo?_eq [DecidableEq E] (h : b.Binds start r.list) (hnodup : (r.list.map Entry.name).Nodup)
    (he : r.at? slot = some e) (hi : Reaches b.data e i)
    (hfinal : ∀ x ∈ elements, (final x).values.size = r.list.length) (x : E) :
    (if x ∈ elements then putTo? (r.writeTargets b.handles) (final x).changes i else none) =
      if e.writable = true ∧ x ∈ elements ∧ (final x).written[slot]? = some true then (final x).read? slot else none := by
  by_cases hx : x ∈ elements
  swap
  · rw [if_neg hx, if_neg fun hall => hx hall.2.1]
  rw [if_pos hx]
  split
  · next hwrote =>
    obtain ⟨v, hvalue⟩ := Registry.exists_read? he (hfinal x hx)
    obtain ⟨j, hj, hreaches⟩ := h.reaches he
    obtain rfl : i = j := Option.some.inj (hi.1.symm.trans hreaches.1)
    rw [hvalue]
    apply putTo?_of_mem (ElementState.mem_changes.mpr ⟨hvalue, hwrote.2.2⟩)
      (Registry.writeTargets_eq_some.mpr ⟨e, r.getElem?_list slot ▸ he, hwrote.1, hj⟩)
    intro change hchange htarget
    obtain ⟨rfl, -⟩ := h.slot_of_target hnodup he hi.1 htarget
    exact Option.some.inj ((ElementState.mem_changes.mp hchange).1.symm.trans hvalue)
  · next hwrote =>
    apply putTo?_eq_none
    intro change hchange htarget
    obtain ⟨rfl, hwritable⟩ := h.slot_of_target hnodup he hi.1 htarget
    exact hwrote ⟨hwritable, hx, (ElementState.mem_changes.mp hchange).2⟩

/-- A field that is not written stays as it was. -/
theorem get?_scatterAll_of_unwritten (h : b.Binds start r.list) {name : String}
    (hname : ∀ e ∈ r.writable, e.name ≠ name) (elements : List E) :
    (table (scatterAll (r.writeTargets b.handles) final b.data elements)).get? name = (table start).get? name := by
  rw [← h.get?_of_unwritten hname]
  cases hi : (table b.data).index? name with
  | none =>
    rw [Table.get?_eq_none_of_index? hi]
    apply Table.get?_eq_none_of_index?
    rw [Table.index?_eq_names, names_scatterAll, ← Table.index?_eq_names, hi]
  | some i =>
    have hkept (x : E) : putTo? (r.writeTargets b.handles) (final x).changes i = none := by
      apply putTo?_eq_none
      intro change _ htarget
      obtain ⟨e, he, heq, hwritable⟩ := h.entry_of_target hi htarget
      have hmem : e ∈ r.list := List.mem_of_getElem? (r.getElem?_list _ ▸ he)
      exact hname e (List.mem_filter.mpr ⟨hmem, hwritable⟩) heq
    rw [get?_scatterAll final elements hi]
    simp [hkept]

end Binding.Binds

end

end Elementwise
