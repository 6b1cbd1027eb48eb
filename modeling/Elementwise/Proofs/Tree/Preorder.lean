import Elementwise.Proofs.Tree.InPlace
import Elementwise.Proofs.Tree.Ownership

/-!
# Traversals end and miss nothing

Below a grounded node, a traversal over the arena ends and gives the nodes of its term: every name below
the node once, each before what is below it. So the preorder of a tree lists, without repetition, the names
whose owners lead to the root. A walk that passes over what is below some kinds of nodes comes to the same
names, in the same order, less those that have a node of such a kind above them.
-/

namespace Elementwise

/-- Each callback of the recorder is for the kind that it notes. -/
theorem Visitor.visit_recorder {α : Type} (skip : NodeKind → Bool) (id : NodeId) (n : Node α)
    (seen : List (NodeId × NodeKind)) : (recorder skip).visit id n seen =
      (seen ++ [(id, n.kind)], if skip n.kind then .skipChildren else .descend) := by
  cases n <;> rfl

namespace Term

variable {skip : NodeKind → Bool}

/-- What is noted comes after what was noted before. -/
theorem walk_recorder (t : Term) (seen : List (NodeId × NodeKind)) :
    (Visitor.recorder skip).walk t seen = seen ++ t.walk skip ∧
      ∀ id content, t = .node id content → t.walk skip =
        (id, content.kind) :: if skip content.kind then [] else content.children.flatMap (walk skip) := by
  induction t using children_induction generalizing seen with
  | missing id => simp [walk, Visitor.walk]
  | node id content ih =>
    have hnode (seen : List (NodeId × NodeKind)) : (Visitor.recorder skip).walk (.node id content) seen =
        seen ++ (id, content.kind) :: if skip content.kind then [] else content.children.flatMap (walk skip) := by
      have hlist (cs : List Term) (hcs : cs ⊆ content.children) (seen : List (NodeId × NodeKind)) :
          cs.foldl (fun s c => (Visitor.recorder skip).walk c s) seen = seen ++ cs.flatMap (walk skip) := by
        induction cs generalizing seen with
        | nil => simp
        | cons c rest ihrest =>
          rw [List.cons_subset] at hcs
          rw [List.foldl_cons, (ih c hcs.1 seen).1, ihrest hcs.2, List.flatMap_cons, List.append_assoc]
      rw [Visitor.walk, Visitor.visit_recorder]
      cases skip content.kind with
      | true => rfl
      | false => simp [Visitor.walkNode_eq, hlist content.children (List.Subset.refl _)]
    refine ⟨by rw [hnode, walk, hnode, List.nil_append], ?_⟩
    rintro _ _ ⟨rfl, rfl⟩
    exact hnode []

/-- The nodes of a node: the node itself, and unless its kind is passed over those of its children. -/
theorem walk_node (id : NodeId) (content : Node Term) : (Term.node id content).walk skip =
    (id, content.kind) :: if skip content.kind then [] else content.children.flatMap (walk skip) :=
  (walk_recorder (.node id content) []).2 id content rfl

/-- The names in a term, each before what is below it. -/
def ids (t : Term) : List NodeId := (t.walk fun _ => false).map Prod.fst

/-- The names in a node: its own, then those in its children. -/
theorem ids_node (id : NodeId) (content : Node Term) :
    (Term.node id content).ids = id :: content.children.flatMap ids := by
  simp only [ids, walk_node, Bool.false_eq_true, if_false, List.map_cons, List.map_flatMap]
  rfl

end Term

namespace Tree

open Relation (TransGen)

variable {t : Tree} {c x y : NodeId} {n : Node NodeId} {skip : NodeKind → Bool}

/-- The live nodes from a node on down, each before its children: the traversal that gives the preorder, started
at any node. -/
def preorderOf (t : Tree) (x : NodeId) : List NodeId := t.preorderFrom (t.slots.size + 1) [x]

/-- No node above a node is of a kind that is passed over. -/
def Shown (t : Tree) (skip : NodeKind → Bool) (x : NodeId) : Prop :=
  ∀ a n, TransGen t.OwnedBy x a → t.get? a = some n → skip n.kind = false

namespace Shown

/-- Nothing is above a node without an owner. -/
theorem of_free (hx : t.parent? x = none) : t.Shown skip x := by
  intro a n ha
  obtain ⟨p, hp, -⟩ := TransGen.head'_iff.mp ha
  exact absurd (hx.symm.trans hp) (by simp)

/-- Above what a node owns are the node and what is above it. -/
theorem child (hx : t.Shown skip x) (hget : t.get? x = some n) (hskip : skip n.kind = false)
    (hc : t.parent? c = some x) : t.Shown skip c := by
  intro a m ha hm
  obtain ⟨p, hp, habove⟩ := TransGen.head'_iff.mp ha
  obtain rfl : p = x := Option.some.inj (Eq.trans (Eq.symm hp) hc)
  rcases Relation.reflTransGen_iff_eq_or_transGen.mp habove with rfl | habove
  · exact Option.some.inj (hm.symm.trans hget) ▸ hskip
  · exact hx a m habove hm

end Shown

/-- A traversal that ends has visited the names on the stack and what is below them. -/
theorem eq_preorderFrom {depth : Nat} {visited stack out : List NodeId}
    (h : InPlace.visit t depth visited stack = some out) : out = visited ++ t.preorderFrom depth stack := by
  induction depth generalizing visited stack with
  | zero => cases h
  | succ depth ih =>
    cases stack with
    | nil => exact (Option.some.inj h).symm.trans (List.append_nil _).symm
    | cons y stack =>
      rw [InPlace.visit] at h
      rw [preorderFrom]
      cases hget : t.get? y with
      | none => exact ih (by rwa [hget] at h)
      | some n =>
        rw [hget] at h
        exact (ih h).trans (List.append_assoc _ _ _)

namespace Linked

section

variable (h : t.Linked)

include h

/-- The names in the term of a grounded node. -/
theorem ids_term (hx : t.Grounded x) (hget : t.get? x = some n) :
    (t.term x).ids = x :: n.children.flatMap fun c => (t.term c).ids := by
  rw [h.term_eq hx hget, Term.ids_node, Node.children_map, List.flatMap_map]

section

variable (hx : t.Grounded x) (hlive : t.contains x = true)

include hx hlive

/-- The names in the term of a grounded node are those below it. -/
theorem mem_ids_term : ∀ y, y ∈ (t.term x).ids ↔ t.Below y x := by
  refine h.grounded_induction (fun x n hget hx ih y => ?_) hx hlive
  rw [h.ids_term hx hget, List.mem_cons, List.mem_flatMap, h.below_iff hget]
  exact or_congr_right (exists_congr fun c => and_congr_right fun hc => ih c hc y)

/-- No name stands twice in the term of a grounded node. -/
theorem nodup_ids_term : (t.term x).ids.Nodup := by
  refine h.grounded_induction (fun x n hget hx ih => ?_) hx hlive
  have howned (c : NodeId) (hc : c ∈ n.children) : t.parent? c = some x := h.owns x n hget c hc
  have hmem (c : NodeId) (hc : c ∈ n.children) (y : NodeId) : y ∈ (t.term c).ids ↔ t.Below y c :=
    h.mem_ids_term (.of_parent? (howned c hc) hx) (contains_of_parent? (howned c hc)) y
  rw [h.ids_term hx hget, List.nodup_cons, List.mem_flatMap, List.nodup_flatMap]
  refine ⟨?_, ih, (h.nodup x n hget).imp_of_mem fun {a b} ha hb hne y hya hyb => hne ?_⟩
  · rintro ⟨c, hc, hxc⟩
    exact hx.not_below_child (howned c hc) ((hmem c hc x).mp hxc)
  · exact hx.child_unique (howned a ha) (howned b hb) ((hmem a ha y).mp hya) ((hmem b hb y).mp hyb)

/-- There are no more names in the term of a grounded node than slots in the arena. -/
theorem length_ids_term_le : (t.term x).ids.length ≤ t.slots.size := by
  have hsub : (t.term x).ids ⊆ List.range t.slots.size := fun y hy =>
    List.mem_range.mpr (lt_size_of_contains (((h.mem_ids_term hx hlive y).mp hy).contains hlive))
  simpa using ((h.nodup_ids_term hx hlive).subperm hsub).length_le

/-- A traversal by a stack visits the names in the term of a grounded node, then goes on with the stack. -/
theorem visit_eq :
    ∀ depth visited stack, InPlace.visit t ((t.term x).ids.length + depth) visited (x :: stack) =
      InPlace.visit t depth (visited ++ (t.term x).ids) stack := by
  refine h.grounded_induction (fun x n hget hx ih depth visited stack => ?_) hx hlive
  have hlist (cs : List NodeId) (hcs : cs ⊆ n.children) (visited : List NodeId) :
      InPlace.visit t ((cs.flatMap fun c => (t.term c).ids).length + depth) visited (cs ++ stack) =
        InPlace.visit t depth (visited ++ cs.flatMap fun c => (t.term c).ids) stack := by
    induction cs generalizing visited with
    | nil => simp
    | cons c rest ihrest =>
      rw [List.cons_subset] at hcs
      rw [List.flatMap_cons, List.length_append, Nat.add_assoc, List.cons_append, ih c hcs.1, ihrest hcs.2,
        List.append_assoc]
  rw [h.ids_term hx hget, List.length_cons, Nat.add_right_comm, InPlace.visit, hget]
  simp only [hlist n.children (List.Subset.refl _), List.append_assoc, List.singleton_append]

/-- Walking from a grounded node ends, with any visitor, as walking over its term does. -/
theorem walkWith_eq {σ : Type} {v : Visitor NodeId σ} {v' : Visitor Term σ}
    (hsame : ∀ x n s, v'.visit x (n.map t.term) s = v.visit x n s) :
    ∀ depth, t.weight x < depth → ∀ s, InPlace.walkWith t v depth x s = some (v'.walk (t.term x) s) := by
  refine h.grounded_induction (fun x n hget hx ih depth hdepth s => ?_) hx hlive
  obtain ⟨depth, rfl⟩ : ∃ k, depth = k + 1 := ⟨depth - 1, by omega⟩
  have hlist (cs : List NodeId) (hcs : cs ⊆ n.children) (s : σ) :
      cs.foldlM (fun s c => InPlace.walkWith t v depth c s) s =
        some (cs.foldl (fun s c => v'.walk (t.term c) s) s) := by
    induction cs generalizing s with
    | nil => rfl
    | cons c rest ihrest =>
      rw [List.cons_subset] at hcs
      have hlt := h.weight_lt hx (h.owns x n hget c hcs.1)
      rw [List.foldlM_cons, ih c hcs.1 depth (by omega)]
      exact ihrest hcs.2 _
  simp only [InPlace.walkWith, hget, h.term_eq hx hget, Visitor.walk, hsame]
  obtain ⟨s, next⟩ := v.visit x n s
  cases next with
  | descend => simp [hlist n.children (List.Subset.refl _), Visitor.walkNode_eq, List.foldl_map]
  | skipChildren => rfl

/-- Walking from a grounded node settles on the nodes of its term. -/
theorem walk_settles (skip : NodeKind → Bool) :
    Settles (fun depth => InPlace.walk t skip depth x) ((t.term x).walk skip) := by
  refine .of_lt (t.weight x) fun depth hdepth => h.walkWith_eq hx hlive (fun y n seen => ?_) depth hdepth []
  rw [Visitor.visit_recorder, Visitor.visit_recorder, Node.kind_map]

open Classical in
/-- A walk from a grounded node that is shown comes to the names in its term that are shown, in their order. -/
theorem walk_eq_filter (skip : NodeKind → Bool) :
    t.Shown skip x → ((t.term x).walk skip).map (fun v => (v.1, some v.2)) =
      ((t.term x).ids.filter (t.Shown skip ·)).map fun y => (y, (t.get? y).map Node.kind) := by
  refine h.grounded_induction (fun x n hget hx ih hshown => ?_) hx hlive
  have howned (c : NodeId) (hc : c ∈ n.children) : t.parent? c = some x := h.owns x n hget c hc
  rw [h.ids_term hx hget, List.filter_cons, if_pos (decide_eq_true hshown), h.term_eq hx hget,
    Term.walk_node, Node.kind_map, Node.children_map, List.flatMap_map, List.map_cons, List.map_cons, hget]
  refine congrArg (List.cons (x, some n.kind)) ?_
  cases hskip : skip n.kind with
  | true =>
    -- the node itself is above everything below it
    have hhidden : (n.children.flatMap fun c => (t.term c).ids).filter (t.Shown skip ·) = [] := by
      refine List.filter_eq_nil_iff.mpr fun y hmem hy => ?_
      obtain ⟨c, hc, hmem⟩ := List.mem_flatMap.mp hmem
      have hbelow : t.Below y c :=
        (h.mem_ids_term (.of_parent? (howned c hc) hx) (contains_of_parent? (howned c hc)) y).mp hmem
      exact absurd (of_decide_eq_true hy x n (TransGen.tail' hbelow (howned c hc)) hget) (by simp [hskip])
    rw [hhidden]
    rfl
  | false =>
    rw [if_neg Bool.false_ne_true, List.map_flatMap, List.filter_flatMap, List.map_flatMap]
    exact List.flatMap_congr fun c hc => ih c hc (hshown.child hget hskip (howned c hc))

/-- A traversal from a grounded node ends with the names in its term. -/
theorem visit_ends (depth : Nat) (hdepth : (t.term x).ids.length < depth) :
    InPlace.visit t depth [] [x] = some (t.term x).ids := by
  obtain ⟨k, rfl⟩ := Nat.exists_eq_add_of_lt hdepth
  exact h.visit_eq hx hlive (k + 1) [] []

theorem preorderOf_eq : t.preorderOf x = (t.term x).ids :=
  (eq_preorderFrom (h.visit_ends hx hlive _ (Nat.lt_succ_of_le (h.length_ids_term_le hx hlive)))).symm

/-- A traversal from a grounded node lists what is below it. -/
theorem mem_preorderOf_iff : y ∈ t.preorderOf x ↔ t.Below y x := by
  rw [h.preorderOf_eq hx hlive]
  exact h.mem_ids_term hx hlive y

/-- A traversal from a grounded node lists nothing twice. -/
theorem nodup_preorderOf : (t.preorderOf x).Nodup := by
  rw [h.preorderOf_eq hx hlive]
  exact h.nodup_ids_term hx hlive

end

theorem preorder_eq (hroot : t.Rooted) : t.preorder = t.program.ids :=
  h.preorderOf_eq hroot.grounded hroot.live

/-- The preorder ends. -/
theorem visit_settles (hroot : t.Rooted) : Settles (fun depth => InPlace.visit t depth [] [t.root]) t.preorder := by
  rw [h.preorder_eq hroot]
  exact .of_lt _ (h.visit_ends hroot.grounded hroot.live)

theorem mem_preorder_iff (hroot : t.Rooted) : x ∈ t.preorder ↔ t.Below x t.root :=
  h.mem_preorderOf_iff hroot.grounded hroot.live

theorem nodup_preorder (hroot : t.Rooted) : t.preorder.Nodup :=
  h.nodup_preorderOf hroot.grounded hroot.live

end

end Linked

end Tree

end Elementwise
