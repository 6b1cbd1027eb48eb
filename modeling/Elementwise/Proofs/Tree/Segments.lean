import Elementwise.Proofs.Tree.Reachable

/-!
# Splices are exact

The nodes below a node stand together in the preorder of a tree. A replacement puts the preorder of the new
node in the place of that segment, and a removal takes the segment out. What is below the old node is dead
afterwards; every other node has the content and the owner that it had, except for the one place where the
splice was made.
-/

namespace Elementwise.Tree

variable {t t' t₁ : Tree} {a b c p r x y node : NodeId} {n n' : Node NodeId} {gone new : List NodeId}

/-- One tree is another with an exchange in one place: among the children of a node, `new` stands where `gone`
stood. What was below `gone` is dead, and every other node has the content that it had and, unless it is in
`new`, the owner. -/
structure Exchanges (t : Tree) (p : NodeId) (n n' : Node NodeId) (gone new : List NodeId) (t' : Tree) : Prop where
  id : t'.id = t.id
  root : t'.root = t.root
  old : t.get? p = some n
  now : t'.get? p = some n'
  place : ∃ before after, n.children = before ++ gone ++ after ∧ n'.children = before ++ new ++ after
  dead : ∀ x ∈ gone, ∀ y, t.Below y x → t'.contains y = false
  kept : ∀ y, y ≠ p → (∀ x ∈ gone, ¬t.Below y x) → t'.get? y = t.get? y
  owner : ∀ y ∉ new, (∀ x ∈ gone, ¬t.Below y x) → t'.parent? y = t.parent? y
  owned : ∀ y ∈ new, t'.parent? y = some p

/-! ## From what operations do -/

namespace Relinks

theorem not_below_gone (hr : Relinks t p n' new gone t₁) (hp : t.Grounded p) (hx : x ∈ gone) : ¬t.Below p x :=
  hp.not_below_child (hr.owned x hx)

/-- What was below the nodes that a grounded node loses still is when it has lost them. -/
theorem below_gone_iff (hr : Relinks t p n' new gone t₁) (hp : t.Grounded p) :
    (∃ x ∈ gone, t₁.Below y x) ↔ ∃ x ∈ gone, t.Below y x := by
  constructor
  · rintro ⟨x, hx, hy⟩
    refine ⟨x, hx, ?_⟩
    induction hy using Relation.ReflTransGen.head_induction_on with
    | refl => exact .refl
    | @head y q hq _ ih =>
      replace hq : t₁.parent? y = some q := hq
      rw [hr.parent?] at hq
      split at hq
      · cases hq
      · split at hq
        · -- a new child leads to the grounded node, which is not below what it loses
          obtain rfl := Option.some.inj hq
          exact absurd ih (hr.not_below_gone hp hx)
        · exact ih.head hq
  · rintro ⟨x, hx, hy⟩
    induction hy using Relation.ReflTransGen.head_induction_on with
    | refl => exact ⟨x, hx, .refl⟩
    | @head y q hq _ ih =>
      by_cases hy : y ∈ gone
      · exact ⟨y, hy, .refl⟩
      · obtain ⟨z, hz, hbelow⟩ := ih
        exact ⟨z, hz, hbelow.head ((hr.parent?_kept hy (hr.not_mem_new hq)).trans hq)⟩

/-- A grounded node got other children and what it lost was freed: an exchange in the place of its children. -/
theorem exchanges (hr : Relinks t p n' new gone t₁) (hclears : Clears (fun y => ∃ x ∈ gone, t₁.Below y x) t₁ t')
    (hp : t.Grounded p) (hget : t.get? p = some n)
    (hplace : ∃ before after, n.children = before ++ gone ++ after ∧ n'.children = before ++ new ++ after) :
    Exchanges t p n n' gone new t' := by
  replace hclears : Clears (fun y => ∃ x ∈ gone, t.Below y x) t₁ t' := hclears.congr fun y => hr.below_gone_iff hp
  have hstays {y : NodeId} (hy : ∀ x ∈ gone, ¬t.Below y x) : ¬∃ x ∈ gone, t.Below y x := by
    rintro ⟨x, hx, hbelow⟩
    exact hy x hx hbelow
  have hfree {y : NodeId} (hy : y ∈ new) : ∀ x ∈ gone, ¬t.Below y x := by
    intro x hx hbelow
    obtain rfl := hbelow.eq_of_free (hr.free y hy).2
    exact absurd ((hr.free y hy).2.symm.trans (hr.owned y hx)) (by simp)
  refine ⟨hclears.id.trans hr.id, hclears.root.trans hr.root, hget, ?_, hplace, fun x hx y hy => ?_, fun y hy hy' => ?_,
    fun y hy hy' => ?_, fun y hy => ?_⟩
  · rw [hclears.get?_kept (hstays fun x hx => hr.not_below_gone hp hx), hr.get?, if_pos rfl]
  · rw [Tree.contains, hclears.gone y ⟨x, hx, hy⟩]
    rfl
  · rw [hclears.get?_kept (hstays hy'), hr.get?, if_neg hy]
  · rw [hclears.parent?_kept (hstays hy'), hr.parent?_kept (fun hg => hy' y hg .refl) hy]
  · rw [hclears.parent?_kept (hstays (hfree hy)), hr.parent?_new hy]

end Relinks

namespace Linked

/-- A node that has an owner is replaced by any detached node. -/
theorem exists_replace (h : t.Linked) (hp : t.parent? node = some p) (hr : t.isDetached r = true) :
    ∃ t', t.replace node r = .ok t' := by
  obtain ⟨owner, howner, hmem⟩ := h.listed node p hp
  simp [replace, contains_of_parent? hp, hr, hp, howner, hmem]

/-- What a replacement below a grounded owner does. -/
theorem exchanges_replace (h : t.Linked) (hok : t.replace node r = .ok t') (hp : t.parent? node = some p)
    (hground : t.Grounded p) :
    ∃ n n', Exchanges t p n n' [node] [r] t' ∧ n'.shape = n.shape := by
  obtain ⟨hr, q, owner, hq, howner, hmem, rfl⟩ := replace_eq_ok hok
  obtain rfl : q = p := Option.some.inj (hq.symm.trans hp)
  have hlink := h.relinks_swap hp howner hr
  refine ⟨owner, _, hlink.exchanges (hlink.clears_free h) hground howner ?_, Node.shape_map _ _⟩
  obtain ⟨before, after, hchildren⟩ := List.append_of_mem hmem
  have hnodup := h.nodup q owner howner
  rw [hchildren, List.nodup_middle, List.nodup_cons, List.mem_append, not_or] at hnodup
  refine ⟨before, after, by simp [hchildren], ?_⟩
  -- the node stands in no other place
  have hsame (l : List NodeId) (hl : node ∉ l) : l.map (fun c => if c = node then r else c) = l := by
    refine (List.map_congr_left fun c hc => if_neg ?_).trans (List.map_id l)
    rintro rfl
    exact hl hc
  simp [hchildren, hsame before hnodup.1.1, hsame after hnodup.1.2]

/-- A statement of a block is removed. -/
theorem exists_removeStatement (h : t.Linked) (hp : t.parent? node = some p) {statements : List NodeId}
    (hblock : t.get? p = some (.block statements)) : ∃ t', t.removeStatement node = .ok t' := by
  have hmem : node ∈ statements := (h.mem_children_iff hblock).mpr hp
  simp [removeStatement, contains_of_parent? hp, hp, hblock, hmem]

/-- What a removal from a grounded block does. -/
theorem exchanges_removeStatement (h : t.Linked) (hok : t.removeStatement node = .ok t') (hp : t.parent? node = some p)
    (hground : t.Grounded p) :
    ∃ statements statements', Exchanges t p (.block statements) (.block statements') [node] [] t' := by
  obtain ⟨q, statements, hq, hblock, hmem, rfl⟩ := removeStatement_eq_ok hok
  obtain rfl : q = p := Option.some.inj (hq.symm.trans hp)
  have hlink := h.relinks_drop hp hblock
  refine ⟨statements, _, hlink.exchanges (hlink.clears_free h) hground hblock ?_⟩
  obtain ⟨before, after, rfl⟩ := List.append_of_mem hmem
  have hnodup : (before ++ node :: after).Nodup := h.nodup q _ hblock
  rw [List.nodup_middle, List.nodup_cons, List.mem_append, not_or] at hnodup
  refine ⟨before, after, by simp, ?_⟩
  simp [List.erase_append_right _ hnodup.1.1]

end Linked

/-- Only a statement of a block is removed. -/
theorem removeStatement_of_not_block (hp : t.parent? node = some p)
    (hblock : ∀ statements, t.get? p ≠ some (.block statements)) :
    t.removeStatement node = .error (.notAChild node p) := by
  rw [removeStatement, contains_of_parent? hp, hp]
  simp only [Bool.not_true, Bool.false_eq_true, if_false]

/-! ## Segments of the preorder -/

namespace Linked

/-- Where nothing below a node was changed, its term is the same. -/
theorem term_congr (h : t.Linked) (h' : t'.Linked) (hx : t.Grounded x) (hlive : t.contains x = true) :
    t'.Grounded x → (∀ y, t.Below y x → t'.get? y = t.get? y) → t'.term x = t.term x := by
  refine h.grounded_induction (fun x n hget hx ih hx' hsame => ?_) hx hlive
  have hget' : t'.get? x = some n := (hsame x .refl).trans hget
  rw [h.term_eq hx hget, h'.term_eq hx' hget']
  refine congrArg (Term.node x) (Node.map_congr fun c hc => ?_)
  exact ih c hc (.of_parent? (h'.owns x n hget' c hc) hx') fun y hy => hsame y (hy.tail (h.owns x n hget c hc))

end Linked

namespace Exchanges

section

variable (he : Exchanges t p n n' gone new t')

include he

/-- What is below the root and not below the exchange is still below the root. -/
theorem below_root (hnew : ∀ y ∈ new, t.parent? y = none)
    (hx : t.Below x t.root) (hkept : ∀ z ∈ gone, ¬t.Below x z) : t'.Below x t'.root := by
  induction hx using Relation.ReflTransGen.head_induction_on with
  | refl =>
    rw [he.root]
    exact .refl
  | @head x q hq _ ih =>
    have hx : x ∉ new := fun hx => absurd ((hnew x hx).symm.trans hq) (by simp)
    exact (ih fun z hz hbelow => hkept z hz (hbelow.head hq)).head ((he.owner x hx hkept).trans hq)

variable (h : t.Linked)

include h

/-- What the node lost was owned by it. -/
theorem parent?_gone (hx : x ∈ gone) : t.parent? x = some p := by
  obtain ⟨before, after, hchildren, -⟩ := he.place
  exact h.owns p n he.old x (by simp [hchildren, hx])

/-- What is not below the exchange and has nothing of it below it is as it was. -/
theorem get?_apart (hp : ¬t.Below p x) (hx : ∀ z ∈ gone, ¬t.Below x z) (hy : t.Below y x) :
    t'.get? y = t.get? y := by
  refine he.kept y ?_ fun z hz hyz => ?_
  · rintro rfl
    exact hp hy
  · rcases hy.linear hyz with hxz | hzx
    · exact hx z hz hxz
    · rcases Relation.ReflTransGen.cases_head hzx with rfl | ⟨q, hq, hqx⟩
      · exact hx z hz .refl
      · obtain rfl : p = q := Option.some.inj ((he.parent?_gone h hz).symm.trans hq)
        exact hp hqx

theorem not_below_gone (hp : t.Grounded p) (hpx : t.Below p x) : ∀ z ∈ gone, ¬t.Below x z := fun _ hz hxz =>
  hp.not_below_child (he.parent?_gone h hz) (hpx.trans hxz)

variable (hroot : t.Rooted) (hf : t.Follows t')

include hroot hf

/-- The names below another child of a node that the place of the exchange is below. -/
theorem ids_sibling (hnew : ∀ y ∈ new, t.parent? y = none) (hpa : t.Below p a) (ha : t.Below a t.root)
    (hc : t.parent? c = some a) (hpc : ¬t.Below p c) (hcg : c ∉ gone) : (t'.term c).ids = (t.term c).ids := by
  have hkept (z : NodeId) (hz : z ∈ gone) : ¬t.Below c z := by
    intro hcz
    rcases Relation.ReflTransGen.cases_head hcz with rfl | ⟨q, hq, hqz⟩
    · exact hcg hz
    · obtain rfl : a = q := Option.some.inj (hc.symm.trans hq)
      exact he.not_below_gone h (hroot.grounded.below (hpa.trans ha)) hpa z hz hqz
  have hc' : t'.Grounded c := hf.rooted.grounded.below (he.below_root hnew (ha.head hc) hkept)
  rw [h.term_congr hf.linked (hroot.grounded.below (ha.head hc)) (contains_of_parent? hc) hc' fun y hy =>
    he.get?_apart h hpc hkept hy]

/-- The names below a node that was given to the place of the exchange. -/
theorem ids_new (hp : t.Below p t.root) (hp' : t'.Grounded p) (hr : r ∈ new)
    (hdetached : t.isDetached r = true) : (t'.term r).ids = (t.term r).ids := by
  obtain ⟨hne, hlive, hfree⟩ := isDetached_iff.mp hdetached
  have hpr : ¬t.Below p r := by
    -- the place would be below two nodes without an owner
    intro hpr
    rcases hpr.linear hp with hroot' | hroot'
    · exact hne (hroot'.eq_of_free hfree)
    · exact hne (hroot'.eq_of_free hroot.free).symm
  have hkept (z : NodeId) (hz : z ∈ gone) : ¬t.Below r z := by
    intro hrz
    obtain rfl := hrz.eq_of_free hfree
    exact absurd (hfree.symm.trans (he.parent?_gone h hz)) (by simp)
  rw [h.term_congr hf.linked (.of_free hfree) hlive (.of_parent? (he.owned r hr) hp') fun y hy =>
    he.get?_apart h hpr hkept hy]

/-- From the place of an exchange up to the root, in the names below every node the names below `new` stand where
the names below `gone` stood, and all others are as they were. -/
theorem segments (hnew : ∀ y ∈ new, t.isDetached y = true) (hpa : t.Below p a) (ha : t.Below a t.root) :
    ∃ before after, (t.term a).ids = before ++ (gone.flatMap fun c => (t.term c).ids) ++ after ∧
      (t'.term a).ids = before ++ (new.flatMap fun c => (t.term c).ids) ++ after := by
  have hfree (y : NodeId) (hy : y ∈ new) : t.parent? y = none := (isDetached_iff.mp (hnew y hy)).2.2
  have hground {x : NodeId} (hx : t.Below x t.root) : t.Grounded x := hroot.grounded.below hx
  have hp : t.Below p t.root := hpa.trans ha
  have hground' {x : NodeId} (hpx : t.Below p x) (hx : t.Below x t.root) : t'.Grounded x :=
    hf.rooted.grounded.below (he.below_root hfree hx (he.not_below_gone h (hground hp) hpx))
  -- up the owners of the place: the names below one child are those of the node before, below the others as they were
  induction hpa with
  | refl =>
    obtain ⟨before, after, hchildren, hchildren'⟩ := he.place
    have hnodup := h.nodup p n he.old
    rw [hchildren, List.append_assoc, List.nodup_append, List.nodup_append] at hnodup
    have hother (c : NodeId) (hc : c ∈ n.children) (hcg : c ∉ gone) : (t'.term c).ids = (t.term c).ids :=
      have howned := h.owns p n he.old c hc
      he.ids_sibling h hroot hf hfree .refl hp howned ((hground hp).not_below_child howned) hcg
    have hbefore : before.flatMap (fun c => (t'.term c).ids) = before.flatMap fun c => (t.term c).ids :=
      List.flatMap_congr fun c hc => hother c (by simp [hchildren, hc]) fun hc' =>
        hnodup.2.2 c hc c (List.mem_append_left _ hc') rfl
    have hafter : after.flatMap (fun c => (t'.term c).ids) = after.flatMap fun c => (t.term c).ids :=
      List.flatMap_congr fun c hc => hother c (by simp [hchildren, hc]) fun hc' => hnodup.2.1.2.2 c hc' c hc rfl
    have hgiven : new.flatMap (fun c => (t'.term c).ids) = new.flatMap fun c => (t.term c).ids :=
      List.flatMap_congr fun c hc => he.ids_new h hroot hf hp (hground' .refl hp) hc (hnew c hc)
    refine ⟨p :: before.flatMap fun c => (t.term c).ids, after.flatMap fun c => (t.term c).ids, ?_, ?_⟩
    · rw [h.ids_term (hground hp) he.old, hchildren]
      simp
    · rw [hf.linked.ids_term (hground' .refl hp) he.now, hchildren', List.flatMap_append, List.flatMap_append, hbefore,
        hafter, hgiven]
      simp
  | @tail b a hpb hba ih =>
    replace hba : t.parent? b = some a := hba
    obtain ⟨before, after, hids, hids'⟩ := ih (ha.head hba)
    obtain ⟨m, hm, hmem⟩ := h.listed b a hba
    have hap : a ≠ p := by
      rintro rfl
      exact (hground ha).not_below_child hba hpb
    have hpa : t.Below p a := hpb.tail hba
    have hm' : t'.get? a = some m := (he.kept a hap (he.not_below_gone h (hground hp) hpa)).trans hm
    obtain ⟨first, last, hchildren⟩ := List.append_of_mem hmem
    have hnodup := h.nodup a m hm
    rw [hchildren, List.nodup_middle, List.nodup_cons, List.mem_append, not_or] at hnodup
    have hother (c : NodeId) (hc : c ∈ m.children) (hne : c ≠ b) : (t'.term c).ids = (t.term c).ids := by
      have howned := h.owns a m hm c hc
      refine he.ids_sibling h hroot hf hfree hpa ha howned
        (fun hpc => hne ((hground ha).child_unique howned hba hpc hpb)) fun hcg => hap ?_
      exact Option.some.inj (howned.symm.trans (he.parent?_gone h hcg))
    have hfirst : first.flatMap (fun c => (t'.term c).ids) = first.flatMap fun c => (t.term c).ids :=
      List.flatMap_congr fun c hc => hother c (by simp [hchildren, hc]) fun hcb => hnodup.1.1 (hcb ▸ hc)
    have hlast : last.flatMap (fun c => (t'.term c).ids) = last.flatMap fun c => (t.term c).ids :=
      List.flatMap_congr fun c hc => hother c (by simp [hchildren, hc]) fun hcb => hnodup.1.2 (hcb ▸ hc)
    refine ⟨a :: (first.flatMap fun c => (t.term c).ids) ++ before, after ++ last.flatMap fun c => (t.term c).ids,
      ?_, ?_⟩
    · rw [h.ids_term (hground ha) hm, hchildren, List.flatMap_append, List.flatMap_cons, hids]
      simp
    · rw [hf.linked.ids_term (hground' hpa ha) hm', hchildren, List.flatMap_append, List.flatMap_cons, hids', hfirst,
        hlast]
      simp

/-- The preorder after an exchange below the root. -/
theorem preorder (hnew : ∀ y ∈ new, t.isDetached y = true) (hp : t.Below p t.root) :
    ∃ before after, t.preorder = before ++ gone.flatMap t.preorderOf ++ after ∧
      t'.preorder = before ++ new.flatMap t.preorderOf ++ after := by
  obtain ⟨before, after, hids, hids'⟩ := he.segments h hroot hf hnew hp .refl
  have hgone : gone.flatMap t.preorderOf = gone.flatMap fun c => (t.term c).ids :=
    List.flatMap_congr fun c hc =>
      have howned := he.parent?_gone h hc
      h.preorderOf_eq (.of_parent? howned (hroot.grounded.below hp)) (contains_of_parent? howned)
  have hgiven : new.flatMap t.preorderOf = new.flatMap fun c => (t.term c).ids :=
    List.flatMap_congr fun c hc =>
      have hfree := (isDetached_iff.mp (hnew c hc)).2
      h.preorderOf_eq (.of_free hfree.2) hfree.1
  refine ⟨before, after, ?_, ?_⟩
  · rw [h.preorder_eq hroot, program, hgone, hids]
  · rw [hf.linked.preorder_eq hf.rooted, program, he.root, hgiven, hids']

end

end Exchanges

/-! ## Refusals -/

/-- A replacement is refused for a dead node first, then for a new node that is not detached, then for a node
without an owner. -/
theorem replace_refused (t : Tree) (node r : NodeId) :
    (t.contains node = false → t.replace node r = .error (.stale node)) ∧
      (t.contains node = true → t.isDetached r = false → t.replace node r = .error (.replacementAttached r)) ∧
      (t.contains node = true → t.isDetached r = true → t.parent? node = none →
        t.replace node r = .error (.noParent node)) := by
  refine ⟨fun hdead => ?_, fun hlive hr => ?_, fun hlive hr hfree => ?_⟩
  · simp [replace, hdead]
  · simp [replace, hlive, hr]
  · simp [replace, hlive, hr, hfree]

/-- A removal is refused for a dead node first, then for a node without an owner. -/
theorem removeStatement_refused (t : Tree) (node : NodeId) :
    (t.contains node = false → t.removeStatement node = .error (.stale node)) ∧
      (t.contains node = true → t.parent? node = none → t.removeStatement node = .error (.noParent node)) := by
  refine ⟨fun hdead => ?_, fun hlive hfree => ?_⟩
  · simp [removeStatement, hdead]
  · simp [removeStatement, hlive, hfree]

/-- A replacement that is refused in place leaves the tree as it was. -/
theorem Linked.settles_replace_error (h : t.Linked) {e : SpliceError} (herror : t.replace node r = .error e) :
    Settles (fun depth => (InPlace.replace depth node r).on t) (.error e, t) := by
  refine .of_lt t.slots.size fun depth hdepth => ?_
  rw [InPlace.replace_on h hdepth, herror]
  rfl

/-- A removal that is refused in place leaves the tree as it was. -/
theorem Linked.settles_removeStatement_error (h : t.Linked) {e : SpliceError}
    (herror : t.removeStatement node = .error e) :
    Settles (fun depth => (InPlace.removeStatement depth node).on t) (.error e, t) := by
  refine .of_lt t.slots.size fun depth hdepth => ?_
  rw [InPlace.removeStatement_on h hdepth, herror]
  rfl

/-- Splices are exact. Let a node other than the root be in the preorder of a tree that calls can make. It has
an owner, and is replaced by any detached node: the new node stands in its place among the children of the owner,
which is otherwise the same, and in the preorder the nodes from the new node on down stand where the segment of the
old one was. It is removed if and only if its owner is a block, and then the segment is taken out in the same way;
else it is not among the statements of a block. In both, what was below the node is dead and every other node keeps
its content and its owner. For any names, replacements are refused for a dead node, else for a new node that is
not detached, else for a node without an owner, and for nothing else; removals likewise; and a refusal leaves the
tree unchanged. -/
theorem Reachable.exact_splices (h : Reachable t) :
    (∀ node ∈ t.preorder, node ≠ t.root → ∃ p n, t.parent? node = some p ∧ t.get? p = some n ∧
      (∀ r, t.isDetached r = true → ∃ t' n', t.replace node r = .ok t' ∧
        Exchanges t p n n' [node] [r] t' ∧ n'.shape = n.shape ∧
        ∃ before after, t.preorder = before ++ t.preorderOf node ++ after ∧
          t'.preorder = before ++ t.preorderOf r ++ after) ∧
      ((∃ t', t.removeStatement node = .ok t') ↔ ∃ statements, n = .block statements) ∧
      (∀ t', t.removeStatement node = .ok t' → ∃ statements, Exchanges t p n (.block statements) [node] [] t' ∧
        ∃ before after, t.preorder = before ++ t.preorderOf node ++ after ∧ t'.preorder = before ++ after) ∧
      ((∀ statements, n ≠ .block statements) → t.removeStatement node = .error (.notAChild node p))) ∧
    ∀ node r,
      ((t.contains node = false → t.replace node r = .error (.stale node)) ∧
        (t.contains node = true → t.isDetached r = false → t.replace node r = .error (.replacementAttached r)) ∧
        (t.contains node = true → t.isDetached r = true → t.parent? node = none →
          t.replace node r = .error (.noParent node)) ∧
        ∀ p, t.parent? node = some p → t.isDetached r = true → ∃ t', t.replace node r = .ok t') ∧
      ((t.contains node = false → t.removeStatement node = .error (.stale node)) ∧
        (t.contains node = true → t.parent? node = none → t.removeStatement node = .error (.noParent node))) ∧
      (∀ e, t.replace node r = .error e →
        Settles (fun depth => (InPlace.replace depth node r).on t) (.error e, t)) ∧
      ∀ e, t.removeStatement node = .error e →
        Settles (fun depth => (InPlace.removeStatement depth node).on t) (.error e, t) := by
  obtain ⟨hlinked, hrooted⟩ := h.linked_rooted
  refine ⟨fun node hnode hne => ?_, fun node r => ⟨⟨(replace_refused t node r).1, (replace_refused t node r).2.1,
    (replace_refused t node r).2.2, fun p => hlinked.exists_replace⟩, removeStatement_refused t node,
    fun e => hlinked.settles_replace_error, fun e => hlinked.settles_removeStatement_error⟩⟩
  obtain ⟨p, hp, hbelow⟩ : ∃ p, t.parent? node = some p ∧ t.Below p t.root := by
    rcases Relation.ReflTransGen.cases_head ((hlinked.mem_preorder_iff hrooted).mp hnode) with heq | ⟨p, hp, hbelow⟩
    · exact absurd heq hne
    · exact ⟨p, hp, hbelow⟩
  have hground : t.Grounded p := hrooted.grounded.below hbelow
  obtain ⟨n, hn, -⟩ := hlinked.listed node p hp
  refine ⟨p, n, hp, hn, fun r hr => ?_, ⟨?_, ?_⟩, fun t' hok => ?_, fun hblock => ?_⟩
  · obtain ⟨t', hok⟩ := hlinked.exists_replace hp hr
    obtain ⟨m, n', hexchanges, hshape⟩ := hlinked.exchanges_replace hok hp hground
    obtain rfl := Option.some.inj (hexchanges.old.symm.trans hn)
    obtain ⟨q, -, hsplices⟩ := hlinked.splices_replace hok
    have hpreorder := hexchanges.preorder hlinked hrooted (hsplices.follows hlinked hrooted) (by simpa using hr) hbelow
    exact ⟨t', n', hok, hexchanges, hshape, by simpa using hpreorder⟩
  · rintro ⟨t', hok⟩
    obtain ⟨statements, _, hexchanges⟩ := hlinked.exchanges_removeStatement hok hp hground
    exact ⟨statements, Option.some.inj (hn.symm.trans hexchanges.old)⟩
  · rintro ⟨statements, rfl⟩
    exact hlinked.exists_removeStatement hp hn
  · obtain ⟨statements, statements', hexchanges⟩ := hlinked.exchanges_removeStatement hok hp hground
    obtain rfl := Option.some.inj (hexchanges.old.symm.trans hn)
    obtain ⟨q, -, hsplices⟩ := hlinked.splices_remove hok
    have hpreorder := hexchanges.preorder hlinked hrooted (hsplices.follows hlinked hrooted) (by simp) hbelow
    exact ⟨statements', hexchanges, by simpa using hpreorder⟩
  · exact removeStatement_of_not_block hp fun statements hget =>
      hblock statements (Option.some.inj (hn.symm.trans hget))

/-- A block over a block is replaced by a list over a block, which brings two names in the place of two; the block in
it is removed; and a block in a list is not. -/
theorem Reachable.exact_splices_nested :
    let t := [Call.add (.block []), .add (.block [1]), .pushStatement 0 2, .add (.block []), .add (.pack [3]),
      .pushStatement 0 4, .add (.block []), .add (.pack [5])].foldl Call.after (.empty 0)
    (Reachable t ∧ t.preorder = [0, 2, 1, 4, 3] ∧ t.isDetached 6 = true) ∧
      (∃ t' n', t.replace 2 6 = .ok t' ∧ Exchanges t 0 (.block [2, 4]) n' [2] [6] t' ∧
        ∃ before after, t.preorder = before ++ [2, 1] ++ after ∧ t'.preorder = before ++ [6, 5] ++ after) ∧
      (∃ t' before after, t.removeStatement 1 = .ok t' ∧ t.preorder = before ++ [1] ++ after ∧
        t'.preorder = before ++ after) ∧
      t.removeStatement 3 = .error (.notAChild 3 4) ∧
      Settles (fun depth => (InPlace.removeStatement depth 3).on t) (.error (.notAChild 3 4), t) ∧
      t.replace 0 6 = .error (.noParent 0) := by
  intro t
  have ht : Reachable t := (Reachable.empty 0).calls (by simp [Call.Permitted])
  have hpreorder : t.preorder = [0, 2, 1, 4, 3] := by decide
  have hdetached : t.isDetached 6 = true := by decide
  have howners : t.parent? 2 = some 0 ∧ t.parent? 1 = some 2 ∧ t.parent? 3 = some 4 := by decide
  have hget : t.get? 0 = some (.block [2, 4]) ∧ t.get? 2 = some (.block [1]) ∧ t.get? 4 = some (.pack [3]) := by decide
  have hsegments : t.preorderOf 2 = [2, 1] ∧ t.preorderOf 6 = [6, 5] ∧ t.preorderOf 1 = [1] := by decide
  have hroot : t.root = 0 ∧ t.contains 0 = true ∧ t.parent? 0 = none := by decide
  generalize t = t at *
  obtain ⟨hplaces, hnames⟩ := exact_splices ht
  simp only [hpreorder, hroot.1, List.mem_cons, List.not_mem_nil, or_false] at hplaces
  obtain ⟨p, n, hp, hn, hreplaced, -⟩ := hplaces 2 (by simp) (by simp)
  obtain rfl := Option.some.inj (hp.symm.trans howners.1)
  obtain rfl := Option.some.inj (hn.symm.trans hget.1)
  obtain ⟨t', n', hok, hexchanges, -, hsegment⟩ := hreplaced 6 hdetached
  obtain ⟨q, m, hq, hm, -, hremovable, hremoved, -⟩ := hplaces 1 (by simp) (by simp)
  obtain rfl := Option.some.inj (hq.symm.trans howners.2.1)
  obtain ⟨t'', hok'⟩ := hremovable.mpr ⟨[1], Option.some.inj (hm.symm.trans hget.2.1)⟩
  obtain ⟨-, -, before, after, hbefore, hafter⟩ := hremoved t'' hok'
  obtain ⟨u, k, hu, hk, -, -, -, hrefused⟩ := hplaces 3 (by simp) (by simp)
  obtain rfl := Option.some.inj (hu.symm.trans howners.2.2)
  obtain rfl := Option.some.inj (hk.symm.trans hget.2.2)
  have herror := hrefused (by simp)
  rw [hsegments.1, hsegments.2.1] at hsegment
  rw [hsegments.2.2] at hbefore
  exact ⟨⟨ht, hpreorder, hdetached⟩, ⟨t', n', hok, hexchanges, by rwa [hpreorder]⟩,
    ⟨t'', before, after, hok', by rwa [hpreorder], hafter⟩, herror, (hnames 3 6).2.2.2 _ herror,
    (hnames 0 6).1.2.2.1 hroot.2.1 hdetached hroot.2.2⟩

end Elementwise.Tree
