import Elementwise.Proofs.Compile.Lookups
import Elementwise.Proofs.Tree.Copy
import Mathlib.Data.Set.Function

/-!
# Spans follow the copy of a program

Compilation works on a copy of a tree, in which it replaces lookups of the host. Copying gives all nodes other
names, and replacing a lookup frees names, makes new ones and moves the positions of what comes after. What stays
is the place of a node: the way from the root down to it. The node of the tree in the place of a node of the copy
is where that node comes from, and its span is what the map of the copy has for the node.
-/

namespace Elementwise

namespace Tree

variable {s t t' : Tree} {a c d node p q r x y : NodeId} {n : Node NodeId}

/-- Nodes of two trees in the same place: both are the root, or they are children at the same position of nodes in
the same place. -/
inductive SamePlace (s t : Tree) : NodeId → NodeId → Prop
  | root : SamePlace s t s.root t.root
  | child {a x c d n m} (h : SamePlace s t a x) (ha : s.get? a = some n) (hx : t.get? x = some m)
      (hcd : (c, d) ∈ n.children.zip m.children) : SamePlace s t c d

/-- Nodes in the same place are below the roots. -/
theorem SamePlace.below_roots (h : SamePlace s t a x) (hs : s.Linked) (ht : t.Linked) :
    s.Below a s.root ∧ t.Below x t.root := by
  induction h with
  | root => exact ⟨.refl, .refl⟩
  | child _ ha hx hcd ih =>
    obtain ⟨hc, hd⟩ := List.of_mem_zip hcd
    exact ⟨ih.1.head (hs.owns _ _ ha _ hc), ih.2.head (ht.owns _ _ hx _ hd)⟩

/-- What becomes of a node in a lowered copy: the same node over other names, or the value that it looked up. -/
inductive Becomes (s t : Tree) (a x : NodeId) : Prop
  | same {n m} (ha : s.get? a = some n) (hx : t.get? x = some m) (hshape : n.shape = m.shape)
  | lookup {name ty} (ha : s.LooksUp a name ty) (hx : t.get? x = some (.external name ty))

/-! ## Origins -/

theorem Mirrors.symm (h : Mirrors s t x y) : Mirrors t s y x := by
  induction h with
  | node hx hy hshape _ ih =>
    refine .node hy hx hshape.symm fun d c hdc => ih c d ?_
    obtain ⟨i, hi⟩ := List.mem_iff_getElem?.mp hdc
    obtain ⟨hd, hc⟩ := List.getElem?_zip_eq_some.mp hi
    exact List.mem_iff_getElem?.mpr ⟨i, List.getElem?_zip_eq_some.mpr ⟨hc, hd⟩⟩

/-- What a node of a tree gives, with names that come from its names: the same node, or the value it looks up. -/
inductive Yields (t : Tree) (origin : NodeId → NodeId) (a : NodeId) : Node NodeId → Prop
  | same {m : Node NodeId} (h : t.get? a = some (m.map origin)) : Yields t origin a m
  | lookup {name : String} {ty : Ty} (h : t.LooksUp a name ty) : Yields t origin a (.external name ty)

theorem Yields.map {f g : NodeId → NodeId} (h : t.Yields f a n) {rename : NodeId → NodeId}
    (hg : ∀ c ∈ n.children, g (rename c) = f c) : t.Yields g a (n.map rename) := by
  cases h with
  | same h =>
    refine .same (h.trans (congrArg some ?_))
    rw [Node.map_map]
    exact Node.map_congr fun c hc => (hg c hc).symm
  | lookup h => exact .lookup h

/-- A traversal starts at the root. -/
theorem Linked.preorder_eq_cons (h : t.Linked) (hroot : t.Rooted) : ∃ rest, t.preorder = t.root :: rest := by
  obtain ⟨n, hn⟩ := contains_iff.mp hroot.live
  exact ⟨_, (h.preorder_eq hroot).trans (h.ids_term hroot.grounded hn)⟩

/-- A map of a program whose lookups are being replaced. Every node below its root comes from a node of another
tree, which yields it and whose span it has. -/
structure Traces (t : Tree) (spanOf : NodeId → Option Span) (origin : NodeId → NodeId) (tree : Tree)
    (map : SourceMap) : Prop where
  linked : tree.Linked
  rooted : tree.Rooted
  named : map.tree = tree.id
  root : origin tree.root = t.root
  span : ∀ x, tree.Below x tree.root → map.get? x = spanOf (origin x)
  node : ∀ x n, tree.Below x tree.root → tree.get? x = some n → t.Yields origin (origin x) n

namespace Traces

variable {spanOf : NodeId → Option Span} {origin : NodeId → NodeId} {tree tree' : Tree} {map : SourceMap}

section

variable (h : t.Traces spanOf origin tree map)

include h

/-- A node below the root comes from the node in its place. -/
theorem samePlace (hx : tree.Below x tree.root) : SamePlace t tree (origin x) x := by
  induction hx using Relation.ReflTransGen.head_induction_on with
  | refl =>
    rw [h.root]
    exact .root
  | @head x q hq hbelow ih =>
    obtain ⟨n, hn, hx⟩ := h.linked.listed x q hq
    cases h.node q n hbelow hn with
    | same hget =>
      refine .child ih hget hn ?_
      rw [Node.children_map, List.mem_iff_getElem?]
      obtain ⟨i, hi⟩ := List.mem_iff_getElem?.mp hx
      exact ⟨i, by simp [List.getElem?_zip_eq_some, hi]⟩
    | lookup => simp at hx

/-- Nothing else is in the place of a node. -/
theorem eq_origin (ht : t.Linked) (hplace : SamePlace t tree a x) : a = origin x := by
  induction hplace with
  | root => exact h.root.symm
  | @child a x c d n m hplace ha hx hcd ih =>
    cases h.node x m (hplace.below_roots ht h.linked).2 hx with
    | same hget =>
      obtain rfl : m.map origin = n := Option.some.inj (hget.symm.trans (ih ▸ ha))
      rw [Node.children_map] at hcd
      obtain ⟨i, hi⟩ := List.mem_iff_getElem?.mp hcd
      obtain ⟨hc, hd⟩ := List.getElem?_zip_eq_some.mp hi
      rw [List.getElem?_map, hd] at hc
      exact (Option.some.inj hc).symm
    | lookup => simp at hcd

/-- What becomes of a node is in its place. -/
theorem becomes (hx : tree.Below x tree.root) : Becomes t tree (origin x) x := by
  obtain ⟨n, hn⟩ := contains_iff.mp (hx.contains h.rooted.live)
  cases h.node x n hx hn with
  | same hget => exact .same hget hn (by simp)
  | lookup hlooks => exact .lookup hlooks hn

/-- A lookup comes from a lookup of the same name. -/
theorem looksUp {name : String} {ty : Ty} (hx : tree.Below x tree.root)
    (hlooks : tree.LooksUp x name ty) : t.LooksUp (origin x) name ty := by
  obtain ⟨function, arg, hcall, harg, hty⟩ := hlooks
  have hargBelow := hx.head (h.linked.owns x _ hcall arg (by simp))
  cases h.node x _ hx hcall with
  | same hget =>
    cases h.node arg _ hargBelow harg with
    | same hget' => exact ⟨function, origin arg, by simpa using hget, hget', hty⟩

/-- When some lookups were replaced, the values come from where the lookups do, if they have their spans. -/
theorem substituted {done : List NodeId} {name : NodeId → NodeId}
    (hs : tree.Substituted done name tree') {map' : SourceMap} (hnamed : map'.tree = tree'.id)
    (hspan : ∀ x, tree.Below x tree.root → map'.get? (name x) = map.get? x) :
    ∃ origin', t.Traces spanOf origin' tree' map' := by
  have ha := h.rooted.anchored
  -- the names of what stands in the program lead back
  have hback : Set.LeftInvOn (Function.invFunOn name {x | tree.Stands done x}) name {x | tree.Stands done x} :=
    (hs.injOn ha).leftInvOn_invFunOn
  have horigin {x : NodeId} (hx : tree.Stands done x) :
      (origin ∘ Function.invFunOn name {x | tree.Stands done x}) (name x) = origin x := congrArg origin (hback hx)
  refine ⟨origin ∘ Function.invFunOn name {x | tree.Stands done x}, hs.linked, hs.rooted h.rooted, hnamed, ?_, fun y hy => ?_,
    fun y n hy hn => ?_⟩
  · have hroot := horigin ha.stands
    rw [hs.same _ hs.apart] at hroot
    rw [hs.root, hroot, h.root]
  · obtain ⟨x, hx, rfl⟩ := hs.exists_stands h.linked ha hy
    rw [horigin hx, hspan x hx.1, h.span x hx.1]
  · obtain ⟨x, hx, rfl⟩ := hs.exists_stands h.linked ha hy
    rw [horigin hx]
    by_cases hdone : x ∈ done
    · obtain ⟨text, ty, hlooks⟩ := hs.lookup x hdone
      obtain rfl := Option.some.inj (hn.symm.trans (hs.value x hdone text ty hlooks))
      exact .lookup (h.looksUp hx.1 hlooks)
    · rw [hs.same x hdone, hs.kept x hx hdone, Option.map_eq_some_iff] at hn
      obtain ⟨m, hm, rfl⟩ := hn
      refine (h.node x m hx.1 hm).map fun c hc => horigin ?_
      exact hx.child hdone (h.linked.owns x m hm c hc)

end

/-- The map of a copy, before lookups are replaced: nodes come from those at their positions. -/
theorem copy (h : t.Linked) (hroot : t.Rooted) {map : SourceMap} (horder : map.order = t.preorder) (id : Nat) :
    t.Traces map.get? (counterpart (t.copy id).preorder t.preorder) (t.copy id) (map.rebase (t.copy id)) := by
  obtain ⟨hlinked, hrooted⟩ := h.linked_rooted_copy hroot id
  have hnodup := hlinked.nodup_preorder hrooted
  have hmem := fun x => hlinked.mem_preorder_iff (x := x) hrooted
  have hcorresponds : Corresponds (t.copy id) t (t.copy id).preorder t.preorder := by
    rw [h.preorder_eq hroot, hlinked.preorder_eq hrooted]
    exact (h.mirrors_copy hroot id).symm.corresponds hlinked h hrooted.grounded hroot.grounded hrooted.live
  -- every node of the copy has one of the tree at its position
  have hposition (x : NodeId) (hx : (t.copy id).Below x (t.copy id).root) : ∃ (i : Nat) (a : NodeId),
      (t.copy id).preorder[i]? = some x ∧ t.preorder[i]? = some a ∧
      counterpart (t.copy id).preorder t.preorder x = a ∧ (map.rebase (t.copy id)).get? x = map.get? a := by
    obtain ⟨i, hi⟩ := List.mem_iff_getElem?.mp ((hmem x).mpr hx)
    obtain ⟨hlt, -⟩ := List.getElem?_eq_some_iff.mp hi
    obtain ⟨a, ha⟩ : ∃ a, t.preorder[i]? = some a := ⟨_, List.getElem?_eq_getElem (hcorresponds.1 ▸ hlt)⟩
    have hzip : (x, a) ∈ (t.copy id).preorder.zip t.preorder :=
      List.mem_iff_getElem?.mpr ⟨i, List.getElem?_zip_eq_some.mpr ⟨hi, ha⟩⟩
    exact ⟨i, a, hi, ha, counterpart_eq hnodup hzip, SourceMap.get?_rebase hnodup (horder ▸ hzip)⟩
  refine ⟨hlinked, hrooted, rfl, ?_, fun x hx => ?_, fun x n hx hn => ?_⟩
  · obtain ⟨rest, hhead⟩ := h.preorder_eq_cons hroot
    obtain ⟨rest', hhead'⟩ := hlinked.preorder_eq_cons hrooted
    refine counterpart_eq hnodup ?_
    rw [hhead, hhead', List.zip_cons_cons]
    exact List.mem_cons_self
  · obtain ⟨i, a, -, -, ha, hspan⟩ := hposition x hx
    rw [ha, hspan]
  · obtain ⟨i, a, hi, ha, horigin, -⟩ := hposition x hx
    obtain ⟨m, hm, hget⟩ := hcorresponds.2 i x a hi ha
    obtain rfl := Option.some.inj (hm.symm.trans hn)
    rw [horigin]
    exact .same hget

end Traces

end Tree

namespace Lowering

open Elementwise.Tree

/-- After all lookups of a copy were replaced, its nodes come from nodes of the tree. -/
theorem exists_traces_run {t : Tree} (h : t.Linked) (hroot : t.Rooted) {map : SourceMap}
    (horder : map.order = t.preorder) (id : Nat) (sink : Sink) :
    ∃ origin, t.Traces map.get? origin (run (t.copy id) (map.rebase (t.copy id)) sink).tree
      (run (t.copy id) (map.rebase (t.copy id)) sink).map := by
  have hcopy := Traces.copy h hroot horder id
  obtain ⟨hlinked, hrooted⟩ := h.linked_rooted_copy hroot id
  obtain ⟨name, hprogress⟩ := progress_foldl hlinked hrooted.anchored (not_isLookup_root hrooted)
    (map.rebase (t.copy id)) sink (List.append_nil _).symm
  have hlive {x : NodeId} (hx : (t.copy id).Below x (t.copy id).root) : x < (t.copy id).slots.size :=
    lt_size_of_contains (hx.contains hrooted.live)
  -- a map that was rebased has no spans for names that the copy does not have
  have hmoved := (hprogress.moved fun x hx => SourceMap.get?_rebase_of_notMem (hlinked.nodup_preorder hrooted)
    fun hx' => Nat.not_lt.mpr hx (hlive ((hlinked.mem_preorder_iff hrooted).mp hx'))).1
  refine hcopy.substituted hprogress.tree (hprogress.named.trans hprogress.tree.id.symm) fun x hx => ?_
  by_cases hdone : x ∈ lookups (t.copy id).externalCalls
  · exact hmoved x hdone
  · rw [hprogress.tree.same x hdone]
    exact hprogress.spans x (hlive hx)

end Lowering

namespace Tree

/-- Spans follow the copy of a program. A map of a tree that calls can make, with any spans recorded for its
nodes, is rebased onto a copy of the tree, in which then all lookups are replaced, whatever that reports. A node
below the root of the result comes from the node of the tree in its place, which it is up to the names of its
children, unless it is the value that this node looks up; and its span is the last that was recorded for that
node, if any was. Before lookups are replaced, the map itself has for every node of the copy, by position, what the
rebased map has by name. -/
theorem Reachable.spans_follow_copy {t : Tree} (h : Reachable t) (entries : List (NodeId × Span)) {id : Nat}
    (hid : id ≠ t.id) (sink : Sink) :
    let map := (SourceMap.empty t).insertAll entries
    let copy := t.copy id
    let lowered := Lowering.run copy (map.rebase copy) sink
    (∀ x, map.lookup copy x = (map.rebase copy).lookup copy x) ∧
      ∀ x ∈ lowered.tree.preorder, (∃ a ∈ t.preorder, SamePlace t lowered.tree a x) ∧
        ∀ a, SamePlace t lowered.tree a x → Becomes t lowered.tree a x ∧
          lowered.map.lookup lowered.tree x = entries.reverse.lookup a := by
  intro map copy lowered
  obtain ⟨hlinked, hrooted⟩ := h.linked_rooted
  obtain ⟨hlinked', hrooted'⟩ := hlinked.linked_rooted_copy hrooted id
  obtain ⟨htree, horder⟩ := (SourceMap.empty t).insertAll_tree_order entries
  obtain ⟨origin, htraces⟩ := Lowering.exists_traces_run hlinked hrooted horder id sink
  refine ⟨fun x => ?_, fun x hx => ?_⟩
  · have hcopy : copy.id = id := (hlinked.imported_copy hrooted id).grows.id
    refine (SourceMap.lookup_rebase (hlinked'.nodup_preorder hrooted') ?_ x).symm
    rwa [htree, hcopy]
  · have hbelow := (htraces.linked.mem_preorder_iff htraces.rooted).mp hx
    have hplace := htraces.samePlace hbelow
    refine ⟨⟨origin x, ?_, hplace⟩, fun a ha => ?_⟩
    · exact (hlinked.mem_preorder_iff hrooted).mpr (hplace.below_roots hlinked htraces.linked).1
    · obtain rfl := htraces.eq_origin hlinked ha
      refine ⟨htraces.becomes hbelow, ?_⟩
      rw [SourceMap.lookup, if_pos htraces.named.symm, htraces.span x hbelow, SourceMap.get?_insertAll]
      exact Option.or_none

/-- A program that looks up a value and then has an empty block, with spans for both. The copy lists the lookup with
other names, and the value that replaces it is a node that neither tree had. -/
theorem Reachable.spans_follow_copy_lookup :
    let t := [Call.add (.value (.string "gain")), .add (.call "external" [1]), .pushStatement 0 2, .add (.block []),
      .pushStatement 0 3].foldl Call.after (.empty 0)
    let entries : List (NodeId × Span) := [(2, ⟨0, 5, 20⟩), (3, ⟨0, 22, 24⟩)]
    let map := (SourceMap.empty t).insertAll entries
    let lowered := Lowering.run (t.copy 1) (map.rebase (t.copy 1)) {}
    (Reachable t ∧ 1 ≠ t.id ∧ 4 ∈ lowered.tree.preorder ∧ SamePlace t lowered.tree 2 4) ∧
      (t.preorder = [0, 2, 1, 3] ∧ (t.copy 1).preorder = [3, 1, 0, 2] ∧ lowered.tree.preorder = [3, 4, 2]) ∧
      map.lookup (t.copy 1) 2 = (map.rebase (t.copy 1)).lookup (t.copy 1) 2 ∧
      Becomes t lowered.tree 2 4 ∧ lowered.map.lookup lowered.tree 4 = some ⟨0, 5, 20⟩ := by
  intro t entries map lowered
  have ht : Reachable t := (Reachable.empty 0).calls (by simp [Call.Permitted])
  have hid : 1 ≠ t.id := by decide
  have hpreorder : lowered.tree.preorder = [3, 4, 2] := by decide
  have hmem : 4 ∈ lowered.tree.preorder := by
    decide
  have hplace : SamePlace t lowered.tree 2 4 := by
    have hroot : lowered.tree.root = 3 := by decide
    have hget : t.get? 0 = some (.block [2, 3]) := by decide
    have hget' : lowered.tree.get? 3 = some (.block [4, 2]) := by decide
    exact .child (hroot ▸ .root) hget hget' (by decide)
  obtain ⟨hcopy, hlowered⟩ := spans_follow_copy ht entries hid {}
  obtain ⟨hbecomes, hspan⟩ := (hlowered 4 hmem).2 2 hplace
  exact ⟨⟨ht, hid, hmem, hplace⟩, ⟨by decide, by decide, hpreorder⟩, hcopy 2, hbecomes, hspan⟩

end Tree

end Elementwise
