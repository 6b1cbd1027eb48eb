import Elementwise.Proofs.Tree.Splicing

/-!
# Importing from another tree

Importing a grounded node of one tree into another ends. The other tree keeps every slot it had and gets
new ones, all below one detached node, which mirrors the imported node: both have the same shape, and
their children mirror each other one by one.
-/

namespace Elementwise.Tree

variable {s t t' t₁ : Tree} {x y : NodeId} {xs ys : List NodeId}

/-- Nodes of two trees that have the same shape, as have their children, one by one. -/
inductive Mirrors (s t : Tree) : NodeId → NodeId → Prop
  | node {x y n m} (hx : s.get? x = some n) (hy : t.get? y = some m) (hshape : n.shape = m.shape)
      (h : ∀ c d, (c, d) ∈ n.children.zip m.children → Mirrors s t c d) : Mirrors s t x y

namespace Mirrors

/-- What mirrors a node is live. -/
theorem live (h : Mirrors s t x y) : t.contains y = true := by
  cases h with
  | node _ hy => exact contains_iff.mpr ⟨_, hy⟩

theorem mono (h : Mirrors s t x y) (hget : ∀ z n, t.get? z = some n → t'.get? z = some n) : Mirrors s t' x y := by
  induction h with
  | node hx hy hshape _ ih => exact .node hx (hget _ _ hy) hshape ih

end Mirrors

/-- A node was imported: what is new is below its mirror, which is detached. -/
structure Imported (s t : Tree) (x y : NodeId) (t' : Tree) : Prop where
  linked : t'.Linked
  grows : t.Grows t'
  new : t.slots.size ≤ y
  free : t'.parent? y = none
  mirrors : Mirrors s t' x y
  below : ∀ z, t.slots.size ≤ z → z < t'.slots.size → t'.Below z y
  runs : (∀ z, t.slots.size ≤ z → z < t'.slots.size → z ≠ t.root) → ∀ depth, s.weight x < depth →
    (InPlace.importNode s depth x).on t = some (.ok y, t')

/-- Nodes were imported one after another. -/
structure ImportedAll (s t : Tree) (xs ys : List NodeId) (t' : Tree) : Prop where
  linked : t'.Linked
  grows : t.Grows t'
  nodup : ys.Nodup
  new : ∀ y ∈ ys, t.slots.size ≤ y
  free : ∀ y ∈ ys, t'.contains y = true ∧ t'.parent? y = none
  mirrors : List.Forall₂ (Mirrors s t') xs ys
  below : ∀ z, t.slots.size ≤ z → z < t'.slots.size → ∃ y ∈ ys, t'.Below z y
  runs : (∀ z, t.slots.size ≤ z → z < t'.slots.size → z ≠ t.root) → ∀ depth, (∀ x ∈ xs, s.weight x < depth) →
    (xs.mapM (InPlace.importNode s depth)).on t = some (.ok ys, t')

theorem ImportedAll.nil (h : t.Linked) : ImportedAll s t [] [] t where
  linked := h
  grows := .refl t
  nodup := .nil
  new := by simp
  free := by simp
  mirrors := .nil
  below z hz hz' := by omega
  runs _ _ _ := rfl

theorem ImportedAll.cons (h : Imported s t x y t₁) (h' : ImportedAll s t₁ xs ys t') :
    ImportedAll s t (x :: xs) (y :: ys) t' where
  linked := h'.linked
  grows := h.grows.trans h'.grows
  nodup := List.nodup_cons.mpr ⟨fun hy =>
    absurd (lt_size_of_contains h.mirrors.live) (Nat.not_lt.mpr (h'.new y hy)), h'.nodup⟩
  new := List.forall_mem_cons.mpr ⟨h.new, fun z hz => Nat.le_trans h.grows.size (h'.new z hz)⟩
  free := by
    refine List.forall_mem_cons.mpr ⟨⟨h'.grows.contains h.mirrors.live, ?_⟩, h'.free⟩
    rw [h'.grows.parent? y (lt_size_of_contains h.mirrors.live), h.free]
  mirrors := .cons (h.mirrors.mono fun _ _ => h'.grows.get?_of_some) h'.mirrors
  below z hz hz' := by
    by_cases hold : z < t₁.slots.size
    · exact ⟨y, List.mem_cons_self, (h.below z hz hold).mono fun _ _ => h'.grows.parent?_of_some⟩
    · obtain ⟨y', hy', hbelow⟩ := h'.below z (Nat.not_lt.mp hold) hz'
      exact ⟨y', List.mem_cons_of_mem _ hy', hbelow⟩
  runs hroot depth hdepth := by
    obtain ⟨hx, hxs⟩ := List.forall_mem_cons.mp hdepth
    have hfirst := h.runs (fun z hz hz' => hroot z hz (Nat.lt_of_lt_of_le hz' h'.grows.size)) depth hx
    have hrest := h'.runs (fun z hz hz' => h.grows.root ▸ hroot z (Nat.le_trans h.grows.size hz) hz') depth hxs
    rw [List.mapM_cons, InPlace.on_bind_ok hfirst, InPlace.on_bind_ok hrest]
    rfl

/-- Importing a node in place, after its children. -/
theorem ImportedAll.alloc_on {n m : Node NodeId} (hn : s.get? x = some n) (hshape : m.shape = n.shape)
    (h : ImportedAll s t n.children m.children t₁)
    (hroot : ∀ z, t.slots.size ≤ z → z < (t₁.alloc m).2.slots.size → z ≠ t.root) {depth : Nat}
    (hdepth : ∀ c ∈ n.children, s.weight c < depth) :
    (InPlace.importNode s (depth + 1) x).on t = some (.ok t₁.slots.size, (t₁.alloc m).2) := by
  rw [size_alloc] at hroot
  have hchildren := h.runs (fun z hz hz' => hroot z hz (Nat.lt_succ_of_lt hz')) depth hdepth
  have hsame : n.withChildren m.children = m := by
    obtain ⟨hshape', hchildren'⟩ := n.withChildren_spec m.children (Node.length_children_of_shape_eq hshape)
    exact Node.eq_of_shape_eq (hshape'.trans hshape.symm) hchildren'
  have hadd : t₁.add m = .ok (t₁.alloc m) := by
    refine add_of_detached (fun c hc => ?_) h.nodup
    have hne : c ≠ t₁.root := by
      rw [h.grows.root]
      exact hroot c (h.new c hc) (Nat.lt_succ_of_lt (lt_size_of_contains (h.free c hc).1))
    exact isDetached_iff.mpr ⟨hne, h.free c hc⟩
  rw [InPlace.importNode, hn]
  refine (InPlace.on_bind_ok hchildren _).trans ?_
  rw [hsame, InPlace.add_on, hadd]
  rfl

/-- Importing the children of a node, then the node. -/
theorem ImportedAll.alloc {n m : Node NodeId} (hn : s.get? x = some n) (hshape : m.shape = n.shape)
    (hlt : ∀ c ∈ n.children, s.weight c < s.weight x) (h : ImportedAll s t n.children m.children t₁) :
    Imported s t x t₁.slots.size (t₁.alloc m).2 := by
  have hlink := h.linked.relinks_alloc h.nodup h.free
  have hself : t₁.slots.size ∉ m.children := fun hc => Nat.lt_irrefl _ (lt_size_of_contains (h.free _ hc).1)
  refine ⟨hlink.linked h.linked, h.grows.alloc h.new, h.grows.size, ?_, ?_, fun z hz hz' => ?_,
    fun hroot depth hdepth => ?_⟩
  · rw [hlink.parent?_kept List.not_mem_nil hself, parent?, slot?_of_size_le (Nat.le_refl _)]
    rfl
  · have hnode : (t₁.alloc m).2.get? t₁.slots.size = some m := by rw [hlink.get?, if_pos rfl]
    refine .node hn hnode hshape.symm fun c d hcd => ?_
    refine Mirrors.mono ((List.forall₂_iff_zip.mp h.mirrors).2 hcd) fun z k hz => ?_
    rw [hlink.get?, if_neg (Nat.ne_of_lt (lt_size_of_contains (contains_iff.mpr ⟨k, hz⟩))), hz]
  · rw [size_alloc] at hz'
    by_cases hlast : z = t₁.slots.size
    · exact hlast ▸ .refl
    · obtain ⟨y, hy, hbelow⟩ := h.below z hz (by omega)
      have hkept := hbelow.mono fun y p hp => (hlink.parent?_kept List.not_mem_nil (hlink.not_mem_new hp)).trans hp
      exact hkept.tail (hlink.parent?_new hy)
  · obtain ⟨depth, rfl⟩ : ∃ k, depth = k + 1 := ⟨depth - 1, by omega⟩
    exact h.alloc_on hn hshape hroot fun c hc => Nat.lt_of_lt_of_le (hlt c hc) (Nat.le_of_lt_succ hdepth)

/-- Importing nodes that are imported one by one. -/
theorem Imported.threads {step : NodeId → StateM Tree NodeId}
    (hstep : ∀ x ∈ xs, ∀ t : Tree, t.Linked → Imported s t x (step x t).1 (step x t).2)
    (hthreads : Node.Threads step xs t ys t') (h : t.Linked) : ImportedAll s t xs ys t' := by
  induction hthreads with
  | nil => exact .nil h
  | @cons x xs y ys t₁ t₂ t₃ hhead _ ih =>
    have hfirst := hstep x List.mem_cons_self t₁ h
    rw [hhead] at hfirst
    exact .cons hfirst (ih (fun x hx => hstep x (List.mem_cons_of_mem _ hx)) hfirst.linked)

/-- Importing a grounded node. -/
theorem Linked.imported (hs : s.Linked) {depth : Nat} (hx : s.Grounded x) (hlive : s.contains x = true)
    (hdepth : s.weight x < depth) (h : t.Linked) :
    Imported s t x (importWithin s depth x t).1 (importWithin s depth x t).2 := by
  induction depth generalizing x t with
  | zero => omega
  | succ depth ih =>
    obtain ⟨n, hn⟩ := contains_iff.mp hlive
    have howned (c : NodeId) (hc : c ∈ n.children) : s.parent? c = some x := hs.owns x n hn c hc
    have hlt (c : NodeId) (hc : c ∈ n.children) : s.weight c < s.weight x := hs.weight_lt hx (howned c hc)
    have hchildren (c : NodeId) (hc : c ∈ n.children) (t : Tree) (h : t.Linked) :
        Imported s t c (importWithin s depth c t).1 (importWithin s depth c t).2 := by
      have hlt := hlt c hc
      exact ih (.of_parent? (howned c hc) hx) (contains_of_parent? (howned c hc)) (by omega) h
    obtain ⟨hshape, hthreads⟩ := n.mapM_threads (importWithin s depth) t
    have hall := Imported.threads hchildren hthreads h
    rw [importWithin, hn]
    exact hall.alloc hn hshape hlt

end Elementwise.Tree
