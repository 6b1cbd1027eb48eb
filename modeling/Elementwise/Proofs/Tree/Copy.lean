import Elementwise.Proofs.Tree.Encoding

/-!
# Copies are faithful

A copy has the nodes of the tree in the same traversal order, with the same shapes and with children at the
same positions, and it has no other nodes. What depends on the syntax only is the same for both.
-/

namespace Elementwise.Tree

variable {s t t' : Tree} {x y : NodeId} {xs ys : List NodeId}

/-- The name in the second list at the position of a name in the first. -/
def counterpart (xs ys : List NodeId) (x : NodeId) : NodeId := ys.getD (xs.idxOf x) 0

/-- The nodes of two lists are the same node, one by one, up to the names of their children: these are renamed
by position. -/
def Corresponds (s t : Tree) (xs ys : List NodeId) : Prop :=
  xs.length = ys.length ∧ ∀ (i : Nat) (a b : NodeId), xs[i]? = some a → ys[i]? = some b →
    ∃ n, s.get? a = some n ∧ t.get? b = some (n.map (counterpart xs ys))

/-- Lists of nodes of the same shapes that have the children of their nodes at the same positions. -/
structure Aligned (s t : Tree) (xs ys : List NodeId) : Prop where
  length : xs.length = ys.length
  node : ∀ a b, (a, b) ∈ xs.zip ys → ∃ n m, s.get? a = some n ∧ t.get? b = some m ∧ n.shape = m.shape ∧
    n.children.zip m.children ⊆ xs.zip ys

/-- What stands opposite to a name is its counterpart. -/
theorem counterpart_eq (hnodup : xs.Nodup) (h : (x, y) ∈ xs.zip ys) : counterpart xs ys x = y := by
  obtain ⟨i, hi⟩ := List.mem_iff_getElem?.mp h
  obtain ⟨hx, hy⟩ := List.getElem?_zip_eq_some.mp hi
  obtain ⟨hlt, rfl⟩ := List.getElem?_eq_some_iff.mp hx
  rw [counterpart, hnodup.idxOf_getElem, List.getD_eq_getElem?_getD, hy]
  rfl

/-- Aligned nodes correspond. -/
theorem Aligned.corresponds (h : Aligned s t xs ys) (hnodup : xs.Nodup) : Corresponds s t xs ys := by
  refine ⟨h.length, fun i a b ha hb => ?_⟩
  obtain ⟨n, m, hn, hm, hshape, hsub⟩ :=
    h.node a b (List.mem_iff_getElem?.mpr ⟨i, List.getElem?_zip_eq_some.mpr ⟨ha, hb⟩⟩)
  refine ⟨n, hn, hm.trans (congrArg some ?_)⟩
  have hmap : n.map (counterpart xs ys) = m.map fun c => c :=
    Node.map_eq_of_zip hshape fun c d hcd => counterpart_eq hnodup (hsub hcd)
  rw [hmap, Node.map_eq_self fun _ _ => rfl]

/-- Lists put together from pieces of the same lengths stand opposite to each other piece by piece. -/
theorem zip_flatMap {f g : NodeId → List NodeId} (hlength : xs.length = ys.length)
    (h : ∀ c d, (c, d) ∈ xs.zip ys → (f c).length = (g d).length) :
    (xs.flatMap f).length = (ys.flatMap g).length ∧
      (xs.flatMap f).zip (ys.flatMap g) = (xs.zip ys).flatMap fun p => (f p.1).zip (g p.2) := by
  induction xs generalizing ys with
  | nil =>
    obtain rfl := List.length_eq_zero_iff.mp hlength.symm
    exact ⟨rfl, rfl⟩
  | cons c xs ih =>
    cases ys with
    | nil => cases hlength
    | cons d ys =>
      have hfirst := h c d List.mem_cons_self
      obtain ⟨hlength', hzip⟩ := ih (Nat.succ.inj hlength) fun c d hcd => h c d (List.mem_cons_of_mem _ hcd)
      simp only [List.flatMap_cons, List.zip_cons_cons, List.length_append, List.zip_append hfirst, hfirst, hlength', hzip,
        and_self]

/-- The names below a node and those below its mirror are aligned. -/
theorem Mirrors.aligned (h : Mirrors s t x y) (hs : s.Linked) (ht : t.Linked) (hx : s.Grounded x) (hy : t.Grounded y) :
    Aligned s t (s.term x).ids (t.term y).ids := by
  induction h with
  | @node x y n m hn hm hshape hmirrors ih =>
    have hc {c d : NodeId} (hcd : (c, d) ∈ n.children.zip m.children) : s.parent? c = some x :=
      hs.owns x n hn c (List.of_mem_zip hcd).1
    have hd {c d : NodeId} (hcd : (c, d) ∈ n.children.zip m.children) : t.parent? d = some y :=
      ht.owns y m hm d (List.of_mem_zip hcd).2
    have hchild (c d : NodeId) (hcd : (c, d) ∈ n.children.zip m.children) : Aligned s t (s.term c).ids (t.term d).ids :=
      ih c d hcd (.of_parent? (hc hcd) hx) (.of_parent? (hd hcd) hy)
    obtain ⟨hlength, hzip⟩ := zip_flatMap (Node.length_children_of_shape_eq hshape) fun c d hcd => (hchild c d hcd).length
    rw [hs.ids_term hx hn, ht.ids_term hy hm]
    refine ⟨congrArg Nat.succ hlength, fun a b hab => ?_⟩
    rw [List.zip_cons_cons, hzip] at hab ⊢
    rcases List.mem_cons.mp hab with hab | hab
    · -- the nodes themselves: their children begin the pieces
      obtain ⟨rfl, rfl⟩ := Prod.mk.inj hab
      refine ⟨n, m, hn, hm, hshape, fun p hp => List.mem_cons_of_mem _ (List.mem_flatMap.mpr ⟨p, hp, ?_⟩)⟩
      obtain ⟨k, hk⟩ := contains_iff.mp (contains_of_parent? (hc hp))
      obtain ⟨l, hl⟩ := contains_iff.mp (contains_of_parent? (hd hp))
      rw [hs.ids_term (.of_parent? (hc hp) hx) hk, ht.ids_term (.of_parent? (hd hp) hy) hl, List.zip_cons_cons]
      exact List.mem_cons_self
    · obtain ⟨⟨c, d⟩, hcd, hab⟩ := List.mem_flatMap.mp hab
      obtain ⟨k, l, hk, hl, hkl, hsub⟩ := (hchild c d hcd).node a b hab
      exact ⟨k, l, hk, hl, hkl, fun p hp => List.mem_cons_of_mem _ (List.mem_flatMap.mpr ⟨(c, d), hcd, hsub hp⟩)⟩

/-- The names below a node and those below its mirror correspond. -/
theorem Mirrors.corresponds (h : Mirrors s t x y) (hs : s.Linked) (ht : t.Linked) (hx : s.Grounded x) (hy : t.Grounded y)
    (hlive : s.contains x = true) : Corresponds s t (s.term x).ids (t.term y).ids :=
  (h.aligned hs ht hx hy).corresponds (hs.nodup_ids_term hx hlive)

namespace Linked

section

variable (h : t.Linked) (hroot : t.Rooted) (id : Nat)

include h hroot

theorem mirrors_copy : Mirrors t (t.copy id) t.root (t.copy id).root :=
  (h.imported_copy hroot id).mirrors.mono fun _ _ hget => hget

/-- The preorders of a tree and its copy correspond. -/
theorem corresponds_copy : Corresponds t (t.copy id) t.preorder (t.copy id).preorder := by
  obtain ⟨hlinked, hrooted⟩ := h.linked_rooted_copy hroot id
  rw [h.preorder_eq hroot, hlinked.preorder_eq hrooted]
  exact (h.mirrors_copy hroot id).corresponds h hlinked hroot.grounded hrooted.grounded hroot.live

theorem below_copy {z : NodeId} (hz : z < (t.copy id).slots.size) :
    (t.copy id).Below z (t.copy id).root := (h.imported_copy hroot id).below z (Nat.zero_le z) hz

/-- The preorder of a copy lists all its slots. -/
theorem length_preorder_copy : (t.copy id).preorder.length = (t.copy id).slots.size := by
  obtain ⟨hlinked, hrooted⟩ := h.linked_rooted_copy hroot id
  have hperm : (t.copy id).preorder.Perm (List.range (t.copy id).slots.size) := by
    refine (List.perm_ext_iff_of_nodup (hlinked.nodup_preorder hrooted) List.nodup_range).mpr fun z => ?_
    rw [hlinked.mem_preorder_iff hrooted, List.mem_range]
    exact ⟨fun hz => lt_size_of_contains (hz.contains hrooted.live), h.below_copy hroot id⟩
  rw [hperm.length_eq, List.length_range]

/-- A copy has no nodes but those below its root. -/
theorem size_copy : (t.copy id).size = (t.copy id).preorder.length := by
  obtain ⟨-, hrooted⟩ := h.linked_rooted_copy hroot id
  rw [h.length_preorder_copy hroot, size, Array.countP_eq_size]
  intro slot hslot
  obtain ⟨z, hz, rfl⟩ := Array.getElem_of_mem hslot
  have hlive := (h.below_copy hroot id hz).contains hrooted.live
  simpa [contains, slot?, Array.getElem?_eq_getElem hz] using hlive

/-- A copy has no more slots than the tree. -/
theorem slots_copy_le : (t.copy id).slots.size ≤ t.slots.size := by
  rw [← h.length_preorder_copy hroot, ← (h.corresponds_copy hroot id).1, h.preorder_eq hroot]
  exact h.length_ids_term_le hroot.grounded hroot.live

/-- Copying in place ends while there are names for all nodes. -/
theorem copy_settles (hsize : t.slots.size < 4294967296) :
    Settles (fun depth => (InPlace.copy t depth).on (unrooted id)) (.ok (), t.copy id) := by
  have hle := Nat.le_trans (h.slots_copy_le hroot id) (Nat.le_of_lt_succ hsize)
  refine .of_lt (t.weight t.root) fun depth hdepth => ?_
  have hrun := (h.imported_copy hroot id).runs (fun z _ hz heq =>
    absurd (Nat.lt_of_lt_of_le hz hle) (heq ▸ Nat.lt_irrefl _)) depth hdepth
  exact (InPlace.on_bind_ok hrun _).trans rfl

end

end Linked

/-- A copy of a tree that calls can make, while there are names for all nodes: copying ends; the nodes of both
correspond in traversal order; the copy has no others; and the kinds in order, the bytes and the text are the
same. Importing a node from below the root ends too, with a detached node below which all corresponds, and
with all else as it was. -/
theorem Reachable.copy_faithful (h : Reachable t) (id : Nat) (hsize : t.slots.size < 4294967296) :
    Settles (fun depth => (InPlace.copy t depth).on (unrooted id)) (.ok (), t.copy id) ∧
      Corresponds t (t.copy id) t.preorder (t.copy id).preorder ∧
      (t.copy id).size = (t.copy id).preorder.length ∧
      ((t.copy id).linearize = t.linearize ∧ Encoding.program (t.copy id).program = Encoding.program t.program ∧
        (t.copy id).text = t.text) ∧
      ∀ d, Reachable d → ∀ x ∈ t.preorder,
        Settles (fun depth => (InPlace.importNode t depth x).on d) (.ok (d.importNode t x).1, (d.importNode t x).2) ∧
        Corresponds t (d.importNode t x).2 (t.term x).ids ((d.importNode t x).2.term (d.importNode t x).1).ids ∧
        (d.importNode t x).2.isDetached (d.importNode t x).1 = true ∧
        ∀ z < d.slots.size, (d.importNode t x).2.get? z = d.get? z ∧ (d.importNode t x).2.parent? z = d.parent? z := by
  obtain ⟨hlinked, hrooted⟩ := h.linked_rooted
  obtain ⟨hlinked', hrooted'⟩ := hlinked.linked_rooted_copy hrooted id
  have hsame : t.program.Same (t.copy id).program :=
    (hlinked.mirrors_copy hrooted id).same hlinked hlinked' hrooted.grounded hrooted'.grounded
  refine ⟨hlinked.copy_settles hrooted id hsize, hlinked.corresponds_copy hrooted id, hlinked.size_copy hrooted id,
    ⟨?_, ?_, (hsame.textAt_eq 0).symm⟩, fun d hd x hx => ?_⟩
  · rw [hlinked.linearize_eq hrooted, hlinked'.linearize_eq hrooted', hsame.kinds_eq]
  · rw [Encoding.program, Encoding.program, Encoding.term_eq_of_same hsame]
  · obtain ⟨hlinkedD, hrootedD⟩ := hd.linked_rooted
    have hi := hlinked.imported_root hrooted hx hlinkedD
    have hbelow := (hlinked.mem_preorder_iff hrooted).mp hx
    have hcorresponds := hi.mirrors.corresponds hlinked hi.linked (hrooted.grounded.below hbelow) (.of_free hi.free)
      (hbelow.contains hrooted.live)
    have hroot : (d.importNode t x).1 ≠ (d.importNode t x).2.root := by
      rw [hi.grows.root]
      exact hrootedD.ne_of_size_le hi.new
    have hruns := hi.runs fun z hz _ => hrootedD.ne_of_size_le hz
    exact ⟨.of_lt (t.weight x) hruns, hcorresponds, isDetached_iff.mpr ⟨hroot, hi.mirrors.live, hi.free⟩,
      fun z hz => ⟨hi.grows.get? z hz, hi.grows.parent? z hz⟩⟩

/-- A copy after a replacement has no slot for the statement that was replaced, and is the same text. -/
theorem Reachable.copy_faithful_replaced :
    let t := [Call.add (.block []), .pushStatement 0 1, .add (.block []), .replace 1 2].foldl Call.after (.empty 0)
    (Reachable t ∧ t.slots.size < 4294967296) ∧ (t.preorder = [0, 2] ∧ (t.copy 1).preorder = [1, 0]) ∧
      Corresponds t (t.copy 1) t.preorder (t.copy 1).preorder ∧ (t.copy 1).size = (t.copy 1).preorder.length ∧
      (t.copy 1).text = t.text := by
  intro t
  have ht : Reachable t := (Reachable.empty 0).calls (by simp [Call.Permitted])
  have hsize : t.slots.size < 4294967296 := by decide
  obtain ⟨-, hcorresponds, hlength, ⟨-, -, htext⟩, -⟩ := copy_faithful ht 1 hsize
  exact ⟨⟨ht, hsize⟩, ⟨by decide, by decide⟩, hcorresponds, hlength, htext⟩

end Elementwise.Tree
