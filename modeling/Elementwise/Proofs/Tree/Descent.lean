import Elementwise.Proofs.Tree.Ownership

/-!
# Walking down a tree

Where every child is live and every walk down from a node ends, the term of the node misses nothing, however
the arena came about: no owner is looked at, and children may be shared.
-/

namespace Elementwise.Tree

open Relation (ReflTransGen TransGen)

variable {t : Tree} {c p x : NodeId} {n : Node NodeId}

/-- A node is a child of another. -/
def ChildOf (t : Tree) (c p : NodeId) : Prop := ∃ n, t.get? p = some n ∧ c ∈ n.children

/-- Every child of a live node is live. -/
def ChildrenLive (t : Tree) : Prop := ∀ p n, t.get? p = some n → ∀ c ∈ n.children, t.contains c = true

/-- Every walk down from a node ends. -/
abbrev EndsBelow (t : Tree) (x : NodeId) : Prop := Acc t.ChildOf x

/-- Where walks end, none comes back. -/
theorem EndsBelow.not_circular (h : t.EndsBelow x) : ¬TransGen t.ChildOf x x := by
  intro hcircle
  have hends : Acc (TransGen t.ChildOf) x := acc_transGen_iff.mpr h
  induction hends with
  | intro x _ ih => exact ih x hcircle h hcircle

open Classical in
/-- What a walk down from a node can meet, the node included. -/
noncomputable def reach (t : Tree) (x : NodeId) : Finset NodeId :=
  (Finset.range t.slots.size).filter (ReflTransGen t.ChildOf · x)

open Classical in
/-- What a walk meets is in the arena, and walks lead there. -/
theorem mem_reach {y : NodeId} : y ∈ t.reach x ↔ y < t.slots.size ∧ ReflTransGen t.ChildOf y x := by
  rw [reach, Finset.mem_filter, Finset.mem_range]

/-- A walk from a child meets less than one from its node. -/
theorem EndsBelow.card_reach_lt (h : t.EndsBelow p) (hc : t.ChildOf c p) : (t.reach c).card < (t.reach p).card := by
  obtain ⟨n, hn, hmem⟩ := hc
  have hself : p ∈ t.reach p := mem_reach.mpr ⟨lt_size_of_contains (contains_iff.mpr ⟨n, hn⟩), .refl⟩
  refine Finset.card_lt_card (Finset.ssubset_iff_subset_ne.mpr ⟨fun y hy => ?_, fun heq => ?_⟩)
  · obtain ⟨hsize, hy⟩ := mem_reach.mp hy
    exact mem_reach.mpr ⟨hsize, hy.tail ⟨n, hn, hmem⟩⟩
  · rw [← heq] at hself
    exact h.not_circular (TransGen.tail' (mem_reach.mp hself).2 ⟨n, hn, hmem⟩)

/-- Where walks end, a term is its node with the terms of its children. -/
theorem EndsBelow.term_eq (h : t.EndsBelow x) (hget : t.get? x = some n) : t.term x = .node x (n.map t.term) := by
  have hrank (p : NodeId) (m : Node NodeId) (hp : t.EndsBelow p) (hm : t.get? p = some m) (c : NodeId)
      (hc : c ∈ m.children) : t.EndsBelow c ∧ (t.reach c).card < (t.reach p).card :=
    ⟨hp.inv ⟨m, hm, hc⟩, hp.card_reach_lt ⟨m, hm, hc⟩⟩
  have hle : (t.reach x).card ≤ t.slots.size := by
    have hsub : t.reach x ⊆ Finset.range t.slots.size := fun y hy => Finset.mem_range.mpr (mem_reach.mp hy).1
    simpa using Finset.card_le_card hsub
  have hmap : n.map (t.termWithin t.slots.size) = n.map t.term := by
    apply Node.map_congr
    intro c hc
    obtain ⟨hends, hlt⟩ := hrank x n h hget c hc
    exact termWithin_eq hrank hends (by omega) (by omega)
  rw [term, termWithin, hget]
  exact congrArg (Term.node x) hmap

/-- Where walks end and children are live, a term misses nothing. -/
theorem EndsBelow.complete (h : t.EndsBelow x) (hlive : t.ChildrenLive) (hx : t.contains x = true) :
    (t.term x).Complete := by
  induction h with
  | intro x hbelow ih =>
    obtain ⟨n, hn⟩ := contains_iff.mp hx
    rw [EndsBelow.term_eq (.intro x hbelow) hn]
    refine .of_children fun c hc => ?_
    rw [Node.children_map] at hc
    obtain ⟨y, hy, rfl⟩ := List.mem_map.mp hc
    exact ih y ⟨n, hn, hy⟩ (hlive x n hn y hy)

namespace Linked

theorem childrenLive (h : t.Linked) : t.ChildrenLive := fun p n hn c hc => contains_of_parent? (h.owns p n hn c hc)

/-- In a linked arena every walk down from a grounded node ends. -/
theorem endsBelow (h : t.Linked) (hx : t.Grounded x) (hlive : t.contains x = true) : t.EndsBelow x := by
  refine h.grounded_induction (fun x n hn hx ih => ?_) hx hlive
  constructor
  rintro c ⟨m, hm, hc⟩
  obtain rfl := Option.some.inj (hm.symm.trans hn)
  exact ih c hc

end Linked

end Elementwise.Tree
