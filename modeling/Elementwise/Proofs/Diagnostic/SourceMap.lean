import Elementwise.Diagnostic.SourceMap
import Mathlib.Data.List.Nodup

/-!
# Spans by name and by position

The span of a node is the one that was recorded last for its name. A map finds the spans of a copy of its tree by
position; a map that was rebased onto the copy finds the same spans by name, if no name stands twice in the
traversal of the copy.
-/

namespace Elementwise.SourceMap

variable {m : SourceMap} {t : Tree} {x y : NodeId} {span : Span}

theorem lookup_cons (spans : List (NodeId × Span)) :
    ((x, span) :: spans).lookup y = if y = x then some span else spans.lookup y := by
  rw [List.lookup_cons]
  by_cases h : y = x
  · simp [h]
  · simp [h, beq_eq_false_iff_ne.mpr h]

/-- The span of a node after one was recorded. -/
theorem get?_insert : (m.insert x span).get? y = if y = x then some span else m.get? y := by
  have hfilter (hne : y ≠ x) (spans : List (NodeId × Span)) :
      (spans.filter fun entry => entry.1 != x).lookup y = spans.lookup y := by
    induction spans with
    | nil => rfl
    | cons entry spans ih =>
      obtain ⟨z, other⟩ := entry
      rw [List.filter_cons, lookup_cons]
      by_cases hz : z = x
      · rw [if_neg (by simp [hz]), if_neg (hz ▸ hne), ih]
      · rw [if_pos (by simpa using hz), lookup_cons, ih]
  rw [get?, insert, lookup_cons]
  split
  · rfl
  · next hne => exact hfilter hne m.spans

/-- Record spans one after another. -/
def insertAll (m : SourceMap) (entries : List (NodeId × Span)) : SourceMap :=
  entries.foldl (fun m entry => m.insert entry.1 entry.2) m

/-- The last span that was recorded for a node counts. -/
theorem get?_insertAll (entries : List (NodeId × Span)) :
    (m.insertAll entries).get? x = (entries.reverse.lookup x).or (m.get? x) := by
  induction entries generalizing m with
  | nil => rfl
  | cons entry entries ih =>
    change ((m.insert entry.1 entry.2).insertAll entries).get? x = _
    rw [ih, get?_insert, List.reverse_cons, List.lookup_append, lookup_cons, Option.or_assoc]
    congr 1
    split <;> rfl

/-- Recording spans changes neither the tree of a map nor its order. -/
theorem insertAll_tree_order (m : SourceMap) (entries : List (NodeId × Span)) :
    (m.insertAll entries).tree = m.tree ∧ (m.insertAll entries).order = m.order := by
  induction entries generalizing m with
  | nil => exact ⟨rfl, rfl⟩
  | cons entry entries ih => exact ih (m.insert entry.1 entry.2)

/-- A span that is handed on to a node without one. -/
theorem get?_transfer (hnone : m.get? y = none) (z : NodeId) :
    (m.transfer x y).get? z = if z = y then m.get? x else m.get? z := by
  unfold transfer
  cases hx : m.get? x with
  | some span => rw [get?_insert]
  | none =>
    dsimp only
    split
    · next hz => rw [hz, hnone]
    · rfl

/-- Handing a span on to a node leaves the spans of all others. -/
theorem get?_transfer_of_ne {z : NodeId} (hz : z ≠ y) : (m.transfer x y).get? z = m.get? z := by
  unfold transfer
  split
  · rw [get?_insert, if_neg hz]
  · rfl

/-- Handing a span on keeps the tree of a map. -/
theorem tree_transfer : (m.transfer x y).tree = m.tree := by
  unfold transfer
  split <;> rfl

/-- A name that is not in a list has no position there. -/
theorem findIdx?_eq_none {xs : List NodeId} (hx : x ∉ xs) : xs.findIdx? (fun n => n == x) = none := by
  rw [List.findIdx?_eq_none_iff]
  intro n hn
  simpa using fun heq : n = x => hx (heq ▸ hn)

/-- Entries that are put together from two lists, looked up by the names in the first. -/
theorem lookup_zip {xs ys : List NodeId} (hnodup : xs.Nodup) (f : NodeId → Option Span) (x : NodeId) :
    ((xs.zip ys).filterMap fun p => (f p.2).map fun span => (p.1, span)).lookup x =
      (xs.findIdx? fun n => n == x).bind fun i => ys[i]?.bind f := by
  induction xs generalizing ys with
  | nil => rfl
  | cons a xs ih =>
    rw [List.nodup_cons] at hnodup
    cases ys with
    | nil => simp
    | cons b ys =>
      rw [List.zip_cons_cons, List.filterMap_cons, List.findIdx?_cons]
      by_cases hx : a = x
      · -- what comes later does not have this name
        have hlater : xs.findIdx? (fun n => n == x) = none := findIdx?_eq_none (hx ▸ hnodup.1)
        cases hb : f b with
        | none => simp [hx, hb, ih hnodup.2, hlater]
        | some span => simp [hx, hb]
      · have hlater : (((xs.zip ys).filterMap fun p => (f p.2).map fun span => (p.1, span)).lookup x) =
            ((xs.findIdx? fun n => n == x).map (· + 1)).bind fun i => (b :: ys)[i]?.bind f := by
          rw [ih hnodup.2, Option.bind_map]
          rfl
        cases hb : f b with
        | none => simpa [hx, hb] using hlater
        | some span =>
          rw [if_neg (by simpa using hx)]
          simp only [Option.map_some, lookup_cons, if_neg (Ne.symm hx)]
          exact hlater

/-- A rebased map has for a node what the map has for the node at its position. -/
theorem get?_rebase (hnodup : t.preorder.Nodup) (h : (x, y) ∈ t.preorder.zip m.order) :
    (m.rebase t).get? x = m.get? y := by
  obtain ⟨i, hi⟩ := List.mem_iff_getElem?.mp h
  obtain ⟨hx, hy⟩ := List.getElem?_zip_eq_some.mp hi
  have hfind : t.preorder.findIdx? (fun n => n == x) = some i := by
    obtain ⟨hlt, rfl⟩ := List.getElem?_eq_some_iff.mp hx
    rw [List.findIdx?_eq_some_iff_getElem]
    refine ⟨hlt, by simp, fun j hj => ?_⟩
    simpa using fun heq => Nat.ne_of_lt hj (hnodup.getElem_inj_iff.mp heq)
  refine (lookup_zip hnodup m.get? x).trans ?_
  rw [hfind, Option.bind_some, hy, Option.bind_some]

/-- A rebased map has nothing for a name that is not in the traversal. -/
theorem get?_rebase_of_notMem (hnodup : t.preorder.Nodup) (hx : x ∉ t.preorder) : (m.rebase t).get? x = none := by
  refine (lookup_zip hnodup m.get? x).trans ?_
  rw [findIdx?_eq_none hx, Option.bind_none]

/-- By name in a rebased map as by position in the map itself. -/
theorem lookup_rebase (hnodup : t.preorder.Nodup) (htree : t.id ≠ m.tree) (x : NodeId) :
    (m.rebase t).lookup t x = m.lookup t x := by
  have hname : (m.rebase t).lookup t x = (m.rebase t).get? x := if_pos rfl
  rw [hname, lookup, if_neg htree]
  exact lookup_zip hnodup m.get? x

end Elementwise.SourceMap
