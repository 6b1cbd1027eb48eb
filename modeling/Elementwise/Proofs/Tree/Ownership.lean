import Mathlib.Data.Finset.Card
import Mathlib.Logic.Relation
import Elementwise.Proofs.Tree.Arena

/-!
# Owners and what is below them

A node is below another if its owners lead there. In a linked arena the two records of ownership, the
children that a node lists and the owner that a slot names, say the same. Owners may lead round in a
circle there, but a node whose owners come to an end is not on one, and neither is anything below it:
below such a node the children form a finite tree, and recursion over them ends.
-/

namespace Elementwise.Tree

open Relation (ReflTransGen TransGen)

variable {t t' : Tree} {a b c p x y : NodeId}

/-- A node is owned by another. -/
def OwnedBy (t : Tree) (x p : NodeId) : Prop := t.parent? x = some p

/-- The owners of a node lead to another: it is that node, or stands somewhere below it. -/
def Below (t : Tree) (x a : NodeId) : Prop := ReflTransGen t.OwnedBy x a

/-- The owners of a node lead to one that has none. -/
def Grounded (t : Tree) (x : NodeId) : Prop := ∃ top, t.Below x top ∧ t.parent? top = none

namespace Below

theorem head (hc : t.parent? c = some x) (hx : t.Below x a) : t.Below c a := ReflTransGen.head hc hx

theorem tail (hx : t.Below x c) (hc : t.parent? c = some a) : t.Below x a := ReflTransGen.tail hx hc

/-- What is below a node is that node or below something that it owns. -/
theorem iff_child : t.Below x a ↔ x = a ∨ ∃ c, t.parent? c = some a ∧ t.Below x c := by
  constructor
  · intro h
    rcases ReflTransGen.cases_tail h with rfl | ⟨c, hx, hc⟩
    · exact .inl rfl
    · exact .inr ⟨c, hc, hx⟩
  · rintro (rfl | ⟨c, hc, hx⟩)
    · exact .refl
    · exact hx.tail hc

/-- A node without an owner is below itself only. -/
theorem eq_of_free (h : t.Below x a) (hx : t.parent? x = none) : x = a := by
  rcases ReflTransGen.cases_head h with rfl | ⟨p, hp, -⟩
  · rfl
  · exact absurd (hx.symm.trans hp) (by simp)

theorem linear (ha : t.Below x a) (hb : t.Below x b) : t.Below a b ∨ t.Below b a :=
  ReflTransGen.total_of_right_unique (fun _ _ _ h h' => Option.some.inj (h.symm.trans h')) ha hb

/-- What is below a live node is live. -/
theorem contains (h : t.Below x a) (ha : t.contains a = true) : t.contains x = true := by
  rcases ReflTransGen.cases_head h with rfl | ⟨p, hp, -⟩
  · exact ha
  · exact contains_of_parent? hp

theorem mono (h : t.Below x a) (howner : ∀ y p, t.parent? y = some p → t'.parent? y = some p) : t'.Below x a :=
  ReflTransGen.mono (show t.OwnedBy ≤ t'.OwnedBy from howner) x a h

end Below

namespace Grounded

theorem of_free (h : t.parent? x = none) : t.Grounded x := ⟨x, .refl, h⟩

/-- A node is grounded if its owner is. -/
theorem of_parent? (hc : t.parent? c = some x) (h : t.Grounded x) : t.Grounded c := by
  obtain ⟨top, hx, htop⟩ := h
  exact ⟨top, hx.head hc, htop⟩

/-- What is below a grounded node is grounded. -/
theorem below (h : t.Grounded a) (hx : t.Below x a) : t.Grounded x := by
  induction hx using ReflTransGen.head_induction_on with
  | refl => exact h
  | head hc _ ih => exact of_parent? hc ih

/-- A grounded node is not its own ancestor. -/
theorem not_ancestor (h : t.Grounded x) : ¬TransGen t.OwnedBy x x := by
  obtain ⟨top, hbelow, htop⟩ := h
  induction hbelow using ReflTransGen.head_induction_on with
  | refl =>
    intro hcycle
    obtain ⟨p, hp, -⟩ := TransGen.head'_iff.mp hcycle
    exact absurd (htop.symm.trans hp) (by simp)
  | @head y p hp _ ih =>
    -- a circle through a node goes through its owner
    intro hcycle
    obtain ⟨q, hq, hback⟩ := TransGen.head'_iff.mp hcycle
    obtain rfl : p = q := Option.some.inj (Eq.trans (Eq.symm hp) hq)
    exact ih (TransGen.tail' hback hp)

theorem not_below_child (h : t.Grounded x) (hc : t.parent? c = some x) : ¬t.Below x c := fun hx =>
  h.not_ancestor (TransGen.tail' hx hc)

/-- Nothing is below two nodes of one grounded owner. -/
theorem child_unique (h : t.Grounded x) (ha : t.parent? a = some x) (hb : t.parent? b = some x)
    (hya : t.Below y a) (hyb : t.Below y b) : a = b := by
  rcases hya.linear hyb with hab | hba
  · rcases ReflTransGen.cases_head hab with rfl | ⟨p, hp, hrest⟩
    · rfl
    · obtain rfl : p = x := Option.some.inj (Eq.trans (Eq.symm hp) ha)
      exact absurd hrest (h.not_below_child hb)
  · rcases ReflTransGen.cases_head hba with rfl | ⟨p, hp, hrest⟩
    · rfl
    · obtain rfl : p = x := Option.some.inj (Eq.trans (Eq.symm hp) hb)
      exact absurd hrest (h.not_below_child ha)

end Grounded

/-- An arena in which every node owns what it lists, lists nothing twice, and is listed by its owner. -/
structure Linked (t : Tree) : Prop where
  owns : ∀ p n, t.get? p = some n → ∀ c ∈ n.children, t.parent? c = some p
  nodup : ∀ p n, t.get? p = some n → n.children.Nodup
  listed : ∀ x p, t.parent? x = some p → ∃ n, t.get? p = some n ∧ x ∈ n.children

/-- The root is live, and nothing owns it. -/
structure Anchored (t : Tree) : Prop where
  live : t.contains t.root = true
  free : t.parent? t.root = none

namespace Anchored

theorem grounded (h : t.Anchored) : t.Grounded t.root := .of_free h.free

/-- An owner of something below the root is below the root. -/
theorem below_owner (h : t.Anchored) (hx : t.Below x t.root) (hp : t.parent? x = some p) : t.Below p t.root := by
  rcases ReflTransGen.cases_head hx with rfl | ⟨q, hq, hbelow⟩
  · exact absurd (h.free.symm.trans hp) (by simp)
  · obtain rfl : q = p := Option.some.inj (Eq.trans (Eq.symm hq) hp)
    exact hbelow

end Anchored

/-- The root is a block that nothing owns. -/
structure Rooted (t : Tree) : Prop where
  block : ∃ statements, t.get? t.root = some (.block statements)
  free : t.parent? t.root = none

namespace Rooted

/-- The root is live. -/
theorem live (h : t.Rooted) : t.contains t.root = true := by
  obtain ⟨statements, hblock⟩ := h.block
  exact contains_iff.mpr ⟨_, hblock⟩

theorem anchored (h : t.Rooted) : t.Anchored := ⟨h.live, h.free⟩

theorem grounded (h : t.Rooted) : t.Grounded t.root := .of_free h.free

theorem ne_of_size_le (h : t.Rooted) (hx : t.slots.size ≤ x) : x ≠ t.root := fun heq =>
  absurd (lt_size_of_contains h.live) (Nat.not_lt.mpr (heq ▸ hx))

end Rooted

open Classical in
/-- The number of nodes below a node. -/
noncomputable def weight (t : Tree) (x : NodeId) : Nat := ((Finset.range t.slots.size).filter (t.Below · x)).card

/-- No more nodes are below a node than there are slots. -/
theorem weight_le (t : Tree) (x : NodeId) : t.weight x ≤ t.slots.size := by
  classical
  exact (Finset.card_filter_le _ _).trans (Nat.le_of_eq (Finset.card_range _))

namespace Linked

/-- What a node lists is what it owns. -/
theorem mem_children_iff (h : t.Linked) {n : Node NodeId} (hget : t.get? p = some n) :
    c ∈ n.children ↔ t.parent? c = some p := by
  constructor
  · exact h.owns p n hget c
  · intro hc
    obtain ⟨m, hm, hmem⟩ := h.listed c p hc
    exact Option.some.inj (hm.symm.trans hget) ▸ hmem

/-- An owner is live. -/
theorem contains_parent (h : t.Linked) (hc : t.parent? c = some p) : t.contains p = true := by
  obtain ⟨n, hn, -⟩ := h.listed c p hc
  exact contains_iff.mpr ⟨n, hn⟩

/-- Where a live node leads to is live. -/
theorem contains_below (h : t.Linked) (hx : t.contains x = true) (hbelow : t.Below x a) : t.contains a = true := by
  rcases ReflTransGen.cases_tail hbelow with rfl | ⟨c, -, hc⟩
  · exact hx
  · exact h.contains_parent hc

/-- What is below a node is that node or below one that it lists. -/
theorem below_iff (h : t.Linked) {n : Node NodeId} (hget : t.get? a = some n) :
    t.Below x a ↔ x = a ∨ ∃ c ∈ n.children, t.Below x c := by
  rw [Below.iff_child]
  simp only [h.mem_children_iff hget]

/-- Less is below a child of a grounded node than below the node. -/
theorem weight_lt (h : t.Linked) (hx : t.Grounded x) (hc : t.parent? c = some x) : t.weight c < t.weight x := by
  classical
  refine Finset.card_lt_card (Finset.ssubset_iff_subset_ne.mpr ⟨fun y hy => ?_, fun heq => ?_⟩)
  · obtain ⟨hsize, hbelow⟩ := Finset.mem_filter.mp hy
    exact Finset.mem_filter.mpr ⟨hsize, hbelow.tail hc⟩
  · have hsize := lt_size_of_contains (h.contains_parent hc)
    have hself : x ∈ (Finset.range t.slots.size).filter (t.Below · x) :=
      Finset.mem_filter.mpr ⟨Finset.mem_range.mpr hsize, .refl⟩
    rw [← heq] at hself
    exact hx.not_below_child hc (Finset.mem_filter.mp hself).2

/-- Induction over what is below a grounded node: a node has what all its children have. -/
@[elab_as_elim] theorem grounded_induction (h : t.Linked) {P : NodeId → Prop}
    (node : ∀ x n, t.get? x = some n → t.Grounded x → (∀ c ∈ n.children, P c) → P x)
    (hx : t.Grounded x) (hlive : t.contains x = true) : P x := by
  induction hw : t.weight x using Nat.strongRecOn generalizing x with
  | ind w ih =>
    obtain ⟨n, hn⟩ := contains_iff.mp hlive
    refine node x n hn hx fun c hc => ?_
    have howned := h.owns x n hn c hc
    exact ih _ (hw ▸ h.weight_lt hx howned) (.of_parent? howned hx) (contains_of_parent? howned) rfl

/-- The term of a grounded node is the node with the terms of its children. -/
theorem term_eq (h : t.Linked) (hx : t.Grounded x) {n : Node NodeId} (hget : t.get? x = some n) :
    t.term x = .node x (n.map t.term) := by
  have hrank (p : NodeId) (n : Node NodeId) (hp : t.Grounded p) (hn : t.get? p = some n) (c : NodeId)
      (hc : c ∈ n.children) : t.Grounded c ∧ t.weight c < t.weight p :=
    ⟨.of_parent? (h.owns p n hn c hc) hp, h.weight_lt hp (h.owns p n hn c hc)⟩
  have hmap : n.map (t.termWithin t.slots.size) = n.map t.term := by
    refine Node.map_congr fun c hc => ?_
    obtain ⟨hchild, hlt⟩ := hrank x n hx hget c hc
    have hle := t.weight_le x
    exact termWithin_eq hrank hchild (by omega) (by omega)
  rw [term, termWithin, hget]
  exact congrArg (Term.node x) hmap

/-- The term of a grounded live node is complete. -/
theorem complete_term (h : t.Linked) (hx : t.Grounded x) (hlive : t.contains x = true) : (t.term x).Complete := by
  refine h.grounded_induction (fun x n hget hx ih => ?_) hx hlive
  rw [h.term_eq hx hget]
  refine .of_children fun c hc => ?_
  rw [Node.children_map] at hc
  obtain ⟨y, hy, rfl⟩ := List.mem_map.mp hc
  exact ih y hy

end Linked

/-- One node has other children than before: those in `new` had no owner, and those in `gone` have none
any more. -/
structure Relinks (t : Tree) (p : NodeId) (n : Node NodeId) (new gone : List NodeId) (t' : Tree) : Prop where
  id : t'.id = t.id
  root : t'.root = t.root
  size : t.slots.size ≤ t'.slots.size
  place : t.contains p = true ∨ t.slots.size ≤ p
  get? : ∀ y, t'.get? y = if y = p then some n else t.get? y
  parent? : ∀ y, t'.parent? y = if y ∈ gone then none else if y ∈ new then some p else t.parent? y
  nodup : n.children.Nodup
  mem : ∀ c, c ∈ n.children ↔ c ∉ gone ∧ (c ∈ new ∨ t.parent? c = some p)
  free : ∀ c ∈ new, t.contains c = true ∧ t.parent? c = none
  owned : ∀ c ∈ gone, t.parent? c = some p

namespace Relinks

variable {n : Node NodeId} {new gone : List NodeId}

section

variable (hr : Relinks t p n new gone t')

include hr

theorem parent?_gone (hx : x ∈ gone) : t'.parent? x = none := by
  rw [hr.parent?, if_pos hx]

/-- What the node was given has it as its owner. -/
theorem parent?_new (hx : x ∈ new) : t'.parent? x = some p := by
  have hkept : x ∉ gone := fun hg => absurd ((hr.free x hx).2.symm.trans (hr.owned x hg)) (by simp)
  rw [hr.parent?, if_neg hkept, if_pos hx]

theorem parent?_kept (hx : x ∉ gone) (hx' : x ∉ new) : t'.parent? x = t.parent? x := by
  rw [hr.parent?, if_neg hx, if_neg hx']

theorem not_mem_new {q : NodeId} (hx : t.parent? x = some q) : x ∉ new := fun hnew =>
  absurd ((hr.free x hnew).2.symm.trans hx) (by simp)

/-- The arena stays linked. -/
theorem linked (h : t.Linked) : t'.Linked := by
  refine ⟨fun q m hq c hc => ?_, fun q m hq => ?_, fun x q hx => ?_⟩
  · rw [hr.get?] at hq
    split at hq
    · next heq =>
      subst heq
      obtain rfl := Option.some.inj hq
      obtain ⟨hkept, hnew | howned⟩ := (hr.mem c).mp hc
      · exact hr.parent?_new hnew
      · exact (hr.parent?_kept hkept (hr.not_mem_new howned)).trans howned
    · next hne =>
      have howned := h.owns q m hq c hc
      have hkept : c ∉ gone := fun hg => hne (Option.some.inj (howned.symm.trans (hr.owned c hg)))
      exact (hr.parent?_kept hkept (hr.not_mem_new howned)).trans howned
  · rw [hr.get?] at hq
    split at hq
    · obtain rfl := Option.some.inj hq
      exact hr.nodup
    · exact h.nodup q m hq
  · rw [hr.parent?] at hx
    rw [hr.get?]
    split at hx
    · exact absurd hx (by simp)
    · next hkept =>
      split at hx
      · next hx' =>
        obtain rfl := Option.some.inj hx
        exact ⟨n, if_pos rfl, (hr.mem x).mpr ⟨hkept, .inl hx'⟩⟩
      · by_cases hq : q = p
        · subst hq
          exact ⟨n, if_pos rfl, (hr.mem x).mpr ⟨hkept, .inr hx⟩⟩
        · obtain ⟨m, hm, hlisted⟩ := h.listed x q hx
          exact ⟨m, by rw [if_neg hq, hm], hlisted⟩

/-- A root without an owner has none afterwards, and is not below what the node lost. -/
theorem root_free (hfree : t.parent? t.root = none) (hroot : t.root ∉ new) :
    t'.parent? t'.root = none ∧ ¬∃ x ∈ gone, t'.Below t'.root x := by
  have hgone : t.root ∉ gone := fun hg => absurd (hfree.symm.trans (hr.owned _ hg)) (by simp)
  have hnow : t'.parent? t'.root = none := by rw [hr.root, hr.parent?_kept hgone hroot, hfree]
  refine ⟨hnow, ?_⟩
  rintro ⟨x, hx, hbelow⟩
  rw [← hbelow.eq_of_free hnow, hr.root] at hx
  exact hgone hx

/-- The root stays where it is, unless it was given away or a block became another kind of node. -/
theorem rooted (h : t.Rooted) (hroot : t.root ∉ new)
    (hblock : ∀ statements, t.get? p = some (.block statements) → ∃ statements', n = .block statements') :
    t'.Rooted := by
  obtain ⟨statements, hget⟩ := h.block
  refine ⟨?_, ?_⟩
  · rw [hr.root, hr.get?]
    split
    · next heq =>
      obtain ⟨statements', rfl⟩ := hblock statements (heq ▸ hget)
      exact ⟨statements', rfl⟩
    · exact ⟨statements, hget⟩
  · exact (hr.root_free h.free hroot).1

/-- A name that is live now was live, or is new. -/
theorem contains (hx : t'.contains x = true) : t.contains x = true ∨ t.slots.size ≤ x := by
  obtain ⟨m, hm⟩ := contains_iff.mp hx
  rw [hr.get?] at hm
  split at hm
  · next heq => exact heq ▸ hr.place
  · exact .inl (contains_iff.mpr ⟨m, hm⟩)

/-- What was live still is. -/
theorem contains_of (hx : t.contains x = true) : t'.contains x = true := by
  obtain ⟨m, hm⟩ := contains_iff.mp hx
  rw [contains_iff, hr.get?]
  split
  · exact ⟨n, rfl⟩
  · exact ⟨m, hm⟩

theorem anchored (h : t.Anchored) (hroot : t.root ∉ new) : t'.Anchored :=
  ⟨hr.root ▸ hr.contains_of h.live, (hr.root_free h.free hroot).1⟩

end

end Relinks

/-- A new node over nodes that nothing owns. -/
theorem Linked.relinks_alloc (h : t.Linked) {n : Node NodeId} (hnodup : n.children.Nodup)
    (hfree : ∀ c ∈ n.children, t.contains c = true ∧ t.parent? c = none) :
    Relinks t t.slots.size n n.children [] (t.alloc n).2 where
  id := id_alloc n
  root := root_alloc n
  size := by rw [size_alloc]; omega
  place := .inr (Nat.le_refl _)
  get? _ := get?_alloc n
  parent? y := by
    rw [parent?_alloc, if_neg List.not_mem_nil]
    by_cases hy : y ∈ n.children
    · rw [if_pos ⟨hy, (hfree y hy).1⟩, if_pos hy]
    · rw [if_neg fun hy' => hy hy'.1, if_neg hy]
  nodup := hnodup
  mem c := by
    have hfresh : t.parent? c ≠ some t.slots.size := fun hc =>
      Nat.lt_irrefl _ (lt_size_of_contains (h.contains_parent hc))
    simp [hfresh]
  free := hfree
  owned := by simp

end Elementwise.Tree
