import Elementwise.Proofs.Compile.Lookups
import Elementwise.Proofs.Tree.Condition

/-!
# Copying and lowering keep the program

Compilation works on a copy of the tree in which external lookups were replaced. The program of that
copy is the program of the tree up to the names of its nodes: an empty block stands where a name had
no live node, and a node of its own where a value of the host was looked up by a call.
-/

namespace Elementwise

/-- A term with other names, an empty block for what is missing, and lookups as nodes of their own. -/
inductive Lowers : Term → Term → Prop
  | missing {id id'} : Lowers (.missing id) (.node id' (.block []))
  | lookup {id id' argId function name ty} (hty : Tree.externalTy? function = some ty) :
      Lowers (.node id (.call function [.node argId (.value (.string name))])) (.node id' (.external name ty))
  | node {id id' content content'} (hshape : content.shape = content'.shape)
      (h : ∀ c c', (c, c') ∈ content.children.zip content'.children → Lowers c c') :
      Lowers (.node id content) (.node id' content')

namespace Lowers

/-- A node with children that were lowered one by one. -/
theorem of_forall₂ {id id' : NodeId} {content content' : Node Term} (hshape : content.shape = content'.shape)
    (h : List.Forall₂ Lowers content.children content'.children) :
    Lowers (.node id content) (.node id' content') :=
  .node hshape fun _ _ hc => (List.forall₂_iff_zip.mp h).2 hc

/-- A child on the right stands opposite to one on the left. -/
theorem exists_opposite {content content' : Node Term} (hshape : content.shape = content'.shape) {c' : Term}
    (hc' : c' ∈ content'.children) : ∃ c ∈ content.children, (c, c') ∈ content.children.zip content'.children := by
  obtain ⟨i, hi, rfl⟩ := List.getElem_of_mem hc'
  have hlength := Node.length_children_of_shape_eq hshape
  have hi' : i < content.children.length := by omega
  exact ⟨content.children[i], List.getElem_mem hi',
    List.mem_iff_getElem.mpr ⟨i, by simp only [List.length_zip]; omega, List.getElem_zip ..⟩⟩

/-- A lowered term is complete. -/
theorem complete {t t' : Term} (h : Lowers t t') : t'.Complete := by
  induction h with
  | missing | lookup => exact .of_children (by simp)
  | node hshape h ih =>
    refine .of_children fun c' hc' => ?_
    obtain ⟨c, -, hpair⟩ := exists_opposite hshape hc'
    exact ih c c' hpair

/-- What stands in a lowered term was lowered from something in the term. -/
theorem exists_within {t t' s' : Term} (h : Lowers t t') (hin : s'.Within t') :
    ∃ s, s.Within t ∧ Lowers s s' := by
  induction h with
  | missing =>
    cases hin with
    | self => exact ⟨_, .self _, .missing⟩
    | child hc => simp at hc
  | lookup hty =>
    cases hin with
    | self => exact ⟨_, .self _, .lookup hty⟩
    | child hc => simp at hc
  | node hshape h ih =>
    cases hin with
    | self => exact ⟨_, .self _, .node hshape h⟩
    | child hc' hin =>
      obtain ⟨c, hc, hpair⟩ := exists_opposite hshape hc'
      obtain ⟨s, hs, hlowers⟩ := ih c _ hpair hin
      exact ⟨s, .child hc hs, hlowers⟩

/-- The kind of a lowered term: only what is missing and a lookup change theirs. -/
theorem kind?_cases {t t' : Term} (h : Lowers t t') : t'.kind? = t.kind? ∨
    (t.kind? = none ∧ t'.kind? = some .block) ∨ (t.kind? = some .call ∧ t'.kind? = some .external) := by
  cases h with
  | missing => exact .inr (.inl ⟨rfl, rfl⟩)
  | lookup => exact .inr (.inr ⟨rfl, rfl⟩)
  | node hshape => exact .inl (congrArg some (Node.kind_of_shape_eq hshape).symm)

/-- What is asked of every node of a program holds of its lowered form, if lowering a node keeps it. -/
theorem everywhere {P : Node Term → Prop} {t t' : Term} (h : Lowers t t') (ht : t.Everywhere P)
    (hempty : P (.block []))
    (hlookup : ∀ function name ty, Tree.externalTy? function = some ty → P (.external name ty))
    (hnode : ∀ z : Node (Term × Term), (∀ p ∈ z.children, Lowers p.1 p.2) → P (z.map Prod.fst) → P (z.map Prod.snd)) :
    t'.Everywhere P := by
  intro id' content' hin
  obtain ⟨s, hs, hlowers⟩ := h.exists_within hin
  cases hlowers with
  | missing => exact hempty
  | lookup hty => exact hlookup _ _ _ hty
  | node hshape hchildren =>
    obtain ⟨z, rfl, rfl, hz⟩ := Node.exists_zip_of_forall hshape hchildren
    exact hnode z hz (ht _ _ hs)

/-- Only a literal is lowered to a literal. -/
theorem of_value {t : Term} {id' : NodeId} {l : Literal} (h : Lowers t (.node id' (.value l))) :
    ∃ id, t = .node id (.value l) := by
  cases h with
  | node hshape h =>
    rename_i id content
    cases content <;> simp_all [Node.shape, Node.map, Node.mapM, Id.run, bind, pure]

/-- The types that a lowered program names have names if those of the program do. -/
theorem keepsTypable {t t' : Term} (h : Lowers t t') (ht : t.Everywhere Node.Typable) : t'.Everywhere Node.Typable := by
  refine h.everywhere ht ⟨nofun, nofun⟩ (fun function name ty hty => ⟨fun ty' hty' => ?_, nofun⟩) fun z _ hz => ?_
  · obtain rfl := List.mem_singleton.mp hty'
    unfold Tree.externalTy? at hty
    split at hty
    · exact ⟨"float", by rw [← hty]; decide⟩
    · split at hty
      · exact ⟨"vec3f", by rw [← hty]; decide⟩
      · cases hty
  · exact ⟨by simpa using hz.nameable, by simpa using hz.compound⟩

/-- No branch of a lowered program is a declaration if none of the program is. -/
theorem keepsScoped {t t' : Term} (h : Lowers t t') (ht : t.Everywhere Node.Scoped) : t'.Everywhere Node.Scoped := by
  refine h.everywhere ht nofun (fun _ _ _ _ => nofun) fun z hz hscoped => ?_
  unfold Node.Scoped at hscoped ⊢
  rw [Node.branches_map, List.forall_mem_map] at hscoped ⊢
  intro p hp
  rcases (hz p (z.branches_subset hp)).kind?_cases with heq | ⟨-, heq⟩ | ⟨-, heq⟩
  · exact heq ▸ hscoped p hp
  · simp [heq]
  · simp [heq]

/-- A node without children stays. -/
theorem of_leaf {id : NodeId} {content : Node Term} {t' : Term} (h : Lowers (.node id content) t')
    (hleaf : content.children = []) : ∃ id', t' = .node id' content := by
  cases h with
  | lookup => simp at hleaf
  | @node _ id' _ content' hshape _ =>
    have hleaf' : content'.children = [] := by
      simpa [hleaf] using (Node.length_children_of_shape_eq hshape).symm
    exact ⟨id', by rw [Node.eq_of_shape_eq hshape (hleaf.trans hleaf'.symm)]⟩

theorem trans {t t' t'' : Term} (h : Lowers t t') (h' : Lowers t' t'') : Lowers t t'' := by
  induction h generalizing t'' with
  | missing =>
    obtain ⟨id'', rfl⟩ := h'.of_leaf rfl
    exact .missing
  | lookup hty =>
    obtain ⟨id'', rfl⟩ := h'.of_leaf rfl
    exact .lookup hty
  | @node id id' content content' hshape h ih =>
    cases h' with
    | lookup hty =>
      -- only a call with a literal argument was lowered to the lookup
      cases content with
      | call function args =>
        simp only [Node.shape, Node.map_call, Node.call.injEq] at hshape
        obtain ⟨rfl, hlength⟩ := hshape
        obtain ⟨c, rfl⟩ : ∃ c, args = [c] := List.length_eq_one_iff.mp (by simpa using congrArg List.length hlength)
        obtain ⟨argId, rfl⟩ := (h c _ (List.mem_singleton_self _)).of_value
        exact .lookup hty
      | _ => simp [Node.shape, Node.map, Node.mapM, Id.run, bind, pure] at hshape
    | @node _ _ _ content'' hshape' h' =>
      refine .node (hshape.trans hshape') fun c c'' hpair => ?_
      obtain ⟨i, hi⟩ := List.mem_iff_getElem?.mp hpair
      obtain ⟨hc, hc''⟩ := List.getElem?_zip_eq_some.mp hi
      have hlt := (List.getElem?_eq_some_iff.mp hc).1
      rw [Node.length_children_of_shape_eq hshape] at hlt
      obtain ⟨c', hc'⟩ : ∃ c', content'.children[i]? = some c' := ⟨_, List.getElem?_eq_getElem hlt⟩
      exact ih c c' (List.mem_iff_getElem?.mpr ⟨i, List.getElem?_zip_eq_some.mpr ⟨hc, hc'⟩⟩)
        (h' c' c'' (List.mem_iff_getElem?.mpr ⟨i, List.getElem?_zip_eq_some.mpr ⟨hc', hc''⟩⟩))

end Lowers

/-- A program in which lookups became values is lowered. -/
theorem Term.Lowered.lowers {name : NodeId → NodeId} {t t' : Term} (h : Term.Lowered name t t') : Lowers t t' := by
  induction h with
  | lookup hty => exact .lookup hty
  | node _ hshape _ ih => exact .node hshape ih

namespace Tree

variable {s : Term} {t t₁ t' : Tree} {x : NodeId}

/-- A term was copied into an arena: it grew, and the term of one of its new nodes, which is detached, is the copy. -/
structure Copied (s : Term) (t : Tree) (x : NodeId) (t' : Tree) : Prop where
  linked : t'.Linked
  grows : t.Grows t'
  new : t.slots.size ≤ x
  live : t'.contains x = true
  free : t'.parent? x = none
  lowers : Lowers s (t'.term x)

/-- The term of a node that nothing owns stays when the arena grows. -/
theorem Grows.term_eq (hgrows : t.Grows t') (h : t.Linked) (h' : t'.Linked) (hlive : t.contains x = true)
    (hfree : t.parent? x = none) : t'.term x = t.term x :=
  h.term_congr h' (.of_free hfree) hlive (.of_free ((hgrows.parent? x (lt_size_of_contains hlive)).trans hfree))
    fun y hy => hgrows.get? y (lt_size_of_contains (hy.contains hlive))

/-- Terms were copied one after another. -/
structure CopiedAll (ss : List Term) (t : Tree) (xs : List NodeId) (t' : Tree) : Prop where
  linked : t'.Linked
  grows : t.Grows t'
  nodup : xs.Nodup
  new : ∀ x ∈ xs, t.slots.size ≤ x
  free : ∀ x ∈ xs, t'.contains x = true ∧ t'.parent? x = none
  lowers : List.Forall₂ (fun s x => Lowers s (t'.term x)) ss xs

theorem CopiedAll.nil (h : t.Linked) : CopiedAll [] t [] t := ⟨h, .refl t, .nil, by simp, by simp, .nil⟩

theorem CopiedAll.cons {ss : List Term} {xs : List NodeId} (h : Copied s t x t₁) (h' : CopiedAll ss t₁ xs t') :
    CopiedAll (s :: ss) t (x :: xs) t' where
  linked := h'.linked
  grows := h.grows.trans h'.grows
  nodup := List.nodup_cons.mpr ⟨fun hx => absurd (lt_size_of_contains h.live) (Nat.not_lt.mpr (h'.new x hx)), h'.nodup⟩
  new := List.forall_mem_cons.mpr ⟨h.new, fun y hy => Nat.le_trans h.grows.size (h'.new y hy)⟩
  free := List.forall_mem_cons.mpr ⟨⟨h'.grows.contains h.live,
    (h'.grows.parent? x (lt_size_of_contains h.live)).trans h.free⟩, h'.free⟩
  lowers := .cons (by rw [h'.grows.term_eq h.linked h'.linked h.live h.free]; exact h.lowers) h'.lowers

/-- Terms that are copied one by one. -/
theorem CopiedAll.threads {step : NodeId → StateM Tree NodeId} {termOf : NodeId → Term}
    (hstep : ∀ id (t : Tree), t.Linked → Copied (termOf id) t (step id t).1 (step id t).2) {ids xs : List NodeId}
    (hthreads : Node.Threads step ids t xs t') (h : t.Linked) : CopiedAll (ids.map termOf) t xs t' := by
  induction hthreads with
  | nil => exact .nil h
  | @cons id ids x xs t₁ _ _ hhead _ ih =>
    have hfirst := hstep id t₁ h
    rw [hhead] at hfirst
    exact .cons hfirst (ih hfirst.linked)

/-- A new node over copies is a copy. -/
theorem CopiedAll.alloc {ss : List Term} {n : Node NodeId} (h : CopiedAll ss t n.children t₁)
    (hs : Lowers s (.node t₁.slots.size (n.map t₁.term))) : Copied s t t₁.slots.size (t₁.alloc n).2 := by
  have hlink := h.linked.relinks_alloc h.nodup h.free
  have hself : t₁.slots.size ∉ n.children := fun hc => Nat.lt_irrefl _ (lt_size_of_contains (h.free _ hc).1)
  have hnode : (t₁.alloc n).2.get? t₁.slots.size = some n := by rw [hlink.get?, if_pos rfl]
  have hfree : (t₁.alloc n).2.parent? t₁.slots.size = none := by
    rw [hlink.parent?_kept List.not_mem_nil hself, parent?, slot?_of_size_le (Nat.le_refl _)]
    rfl
  refine ⟨hlink.linked h.linked, h.grows.alloc h.new, h.grows.size, contains_iff.mpr ⟨n, hnode⟩, hfree, ?_⟩
  rw [(hlink.linked h.linked).term_eq (.of_free hfree) hnode]
  have hchildren : n.map (t₁.alloc n).2.term = n.map t₁.term := by
    refine Node.map_congr fun c hc => ?_
    obtain ⟨hlive, hdetached⟩ := h.free c hc
    refine h.linked.term_congr (hlink.linked h.linked) (.of_free hdetached) hlive
      (.of_parent? (hlink.parent?_new hc) (.of_free hfree)) fun y hy => ?_
    rw [hlink.get?, if_neg (Nat.ne_of_lt (lt_size_of_contains (hy.contains hlive)))]
  rwa [hchildren]

/-- Importing a node copies its term, with an empty block for what is missing. -/
theorem copied_importWithin (source : Tree) (depth : Nat) (id : NodeId) (h : t.Linked) :
    Copied (source.termWithin depth id) t (importWithin source depth id t).1 (importWithin source depth id t).2 := by
  have hempty (id : NodeId) {t : Tree} (h : t.Linked) : Copied (.missing id) t t.slots.size (t.alloc (.block [])).2 :=
    CopiedAll.alloc (.nil h) (by simpa using .missing)
  induction depth generalizing id t with
  | zero => exact hempty id h
  | succ depth ih =>
    rw [importWithin, termWithin]
    cases hget : source.get? id with
    | none => exact hempty id h
    | some n =>
      obtain ⟨hshape, hthreads⟩ := n.mapM_threads (importWithin source depth) t
      have hrun : (do
          let copied ← n.mapM (importWithin source depth)
          fun t => t.alloc copied : StateM Tree NodeId) t =
          (n.mapM (importWithin source depth) t).2.alloc (n.mapM (importWithin source depth) t).1 := rfl
      dsimp only
      rw [hrun]
      generalize n.mapM (importWithin source depth) t = r at hshape hthreads ⊢
      have hall : CopiedAll (n.children.map (source.termWithin depth)) t r.1.children r.2 :=
        .threads (fun id t h => ih id h) hthreads h
      refine hall.alloc (.of_forall₂ (by simp [hshape]) ?_)
      rw [Node.children_map, Node.children_map, List.forall₂_map_right_iff]
      exact hall.lowers

/-- A copy is linked, under a root that nothing owns, and holds the program of the tree. -/
theorem copy_lowers (t : Tree) (id : Nat) :
    (t.copy id).Linked ∧ (t.copy id).Anchored ∧ Lowers t.program (t.copy id).program := by
  have hcopied := copied_importWithin t (t.slots.size + 1) t.root (linked_unrooted id)
  unfold copy importNode
  generalize importWithin t (t.slots.size + 1) t.root (unrooted id) = r at hcopied ⊢
  obtain ⟨root, copied⟩ := r
  refine ⟨hcopied.linked.withRoot root, ⟨hcopied.live, hcopied.free⟩, ?_⟩
  have hterm : ({ copied with root } : Tree).term root = copied.term root :=
    hcopied.linked.term_congr (hcopied.linked.withRoot root) (.of_free hcopied.free) hcopied.live
      (.of_free hcopied.free) fun _ _ => rfl
  rw [program, program, hterm]
  exact hcopied.lowers

end Tree

namespace Lowering

open Elementwise.Tree

/-- A root that is a lookup cannot be replaced. -/
theorem errors_run_root {t : Tree} (h : t.Linked) (ha : t.Anchored) (hroot : t.IsLookup t.root) (map : SourceMap)
    (sink : Sink) : (run t map sink).sink.errors ≠ sink.errors := by
  obtain ⟨text, ty, hlooks⟩ := hroot
  obtain ⟨function, arg, hcall, harg, -⟩ := id hlooks
  have howned := h.owns t.root _ hcall arg (by simp)
  have hpreorder : t.preorder = [t.root, arg] := by
    refine (h.preorderOf_eq ha.grounded ha.live).trans ?_
    rw [h.ids_term ha.grounded hcall]
    simp [h.ids_term (.of_parent? howned ha.grounded) harg]
  have hcalls : t.externalCalls = [⟨t.root, ty, some text⟩] := by
    have hnone : t.externalCall? arg = none := by simp [Tree.externalCall?, harg]
    simp [externalCalls, hpreorder, hlooks.externalCall?, hnone]
  simp only [run, hcalls, List.foldl_cons, List.foldl_nil, step]
  split
  · next hok =>
    obtain ⟨-, p, -, hp, -⟩ := replace_eq_ok hok
    rw [parent?_alloc, if_neg (by simp), ha.free] at hp
    cases hp
  · exact Nat.ne_of_gt (Nat.lt_of_lt_of_eq (Nat.lt_succ_self _) (Sink.errors_push_error rfl).symm)

/-- The tree of a lowered copy holds the program of the tree. -/
theorem lowers_run {t : Tree} {id : Nat} {map : SourceMap} {sink : Sink}
    (h : (run (t.copy id) map sink).sink.errors = sink.errors) :
    Lowers t.program (run (t.copy id) map sink).tree.program := by
  obtain ⟨hlinked, hanchored, hlowers⟩ := Tree.copy_lowers t id
  generalize t.copy id = copied at *
  by_cases hroot : copied.IsLookup copied.root
  · exact absurd h (errors_run_root hlinked hanchored hroot map sink)
  · obtain ⟨name, hprogress⟩ := progress_foldl hlinked hanchored hroot map sink (List.append_nil _).symm
    refine hlowers.trans (hprogress.tree.lowered hlinked hanchored fun x hx hlookup => ?_).lowers
    exact (mem_lookups_iff hlinked hanchored x).mpr ⟨hx, hlookup⟩

end Lowering

end Elementwise
