import Elementwise.Proofs.Tree.Freeing

/-!
# What the operations on a tree do

Every operation on a linked tree makes all its checks first, and then changes the children of one node and
frees what it took out. The operation in place ends, with the same tree or the same refusal.
-/

namespace Elementwise

/-- A node with as many other children: these are its children, and its shape is as before. -/
theorem Node.withChildren_spec {α : Type} (n : Node α) (children : List α)
    (h : children.length = n.children.length) :
    (n.withChildren children).shape = n.shape ∧ (n.withChildren children).children = children := by
  -- every child takes the next entry, so entries are left over only where children were too few
  have htake {as bs rest rest' : List α} (hthreads : Node.Threads Node.takeNext as rest bs rest')
      (hlength : as.length ≤ rest.length) : bs = rest.take as.length := by
    induction hthreads with
    | nil => rfl
    | @cons a as b bs s₁ s₂ s₃ hhead _ ih =>
      cases s₁ with
      | nil => simp at hlength
      | cons next rest =>
        obtain ⟨rfl, rfl⟩ := Prod.mk.inj hhead
        rw [ih (by simpa using hlength)]
        rfl
  obtain ⟨hshape, hthreads⟩ := Node.mapM_threads Node.takeNext n children
  refine ⟨hshape, ?_⟩
  rw [Node.withChildren, htake hthreads (Nat.le_of_eq h.symm), ← h, List.take_length]

/-- In a list without repetition, putting an entry into the place of another changes only that place. -/
theorem replace_eq_map {l : List NodeId} (h : l.Nodup) (x y : NodeId) :
    l.replace x y = l.map fun c => if c = x then y else c := by
  induction l with
  | nil => rfl
  | cons c rest ih =>
    rw [List.nodup_cons] at h
    by_cases hc : c = x
    · subst hc
      have hrest : rest.map (fun d => if d = c then y else d) = rest := by
        refine (List.map_congr_left fun d hd => if_neg ?_).trans (List.map_id rest)
        rintro rfl
        exact h.1 hd
      simp [hrest]
    · rw [List.replace_cons, beq_false_of_ne (Ne.symm hc), List.map_cons, if_neg hc, ih h.2]

namespace Tree

variable {t t' : Tree} {n owner : Node NodeId} {b c p r s x y node : NodeId} {statements : List NodeId}

theorem isDetached_iff : t.isDetached x = true ↔ x ≠ t.root ∧ t.contains x = true ∧ t.parent? x = none := by
  simp [isDetached, and_assoc]

/-- Children are available if they are detached and different. -/
theorem unavailable?_eq_none_iff {seen cs : List NodeId} :
    t.unavailable? seen cs = none ↔ (∀ c ∈ cs, t.isDetached c = true ∧ c ∉ seen) ∧ cs.Nodup := by
  induction cs generalizing seen with
  | nil => simp [unavailable?]
  | cons c rest ih =>
    rw [unavailable?]
    split
    · next hc =>
      rw [ih]
      grind
    · next hc => simp_all

/-- A node over detached and different children is not refused. -/
theorem add_of_detached (hdetached : ∀ c ∈ n.children, t.isDetached c = true) (hnodup : n.children.Nodup) :
    t.add n = .ok (t.alloc n) := by
  have hnone : t.unavailable? [] n.children = none :=
    unavailable?_eq_none_iff.mpr ⟨fun c hc => ⟨hdetached c hc, List.not_mem_nil⟩, hnodup⟩
  rw [add, hnone]

/-- A node that is not refused: its children are detached and different. -/
theorem add_eq_ok (h : t.add n = .ok (x, t')) :
    x = t.slots.size ∧ t' = (t.alloc n).2 ∧ (∀ c ∈ n.children, t.isDetached c = true) ∧ n.children.Nodup := by
  rw [add] at h
  split at h
  · cases h
  · next hfree =>
    obtain ⟨hdetached, hnodup⟩ := unavailable?_eq_none_iff.mp hfree
    have heq := Except.ok.inj h
    exact ⟨(congrArg Prod.fst heq).symm, (congrArg Prod.snd heq).symm, fun c hc => (hdetached c hc).1, hnodup⟩

/-- A statement at the end of a block. -/
theorem Linked.relinks_push (h : t.Linked) (hb : t.get? b = some (.block statements)) (hs : t.isDetached s = true) :
    Relinks t b (.block (statements ++ [s])) [s] []
      ((t.setNode b (.block (statements ++ [s]))).setParent s (some b)) := by
  obtain ⟨-, hlive, hfree⟩ := isDetached_iff.mp hs
  have hb' : t.contains b = true := contains_iff.mpr ⟨_, hb⟩
  have hmem (c : NodeId) : c ∈ statements ↔ t.parent? c = some b := h.mem_children_iff hb
  refine ⟨rfl, rfl, Nat.le_of_eq (by simp), .inl hb', fun y => ?_, fun y => ?_, ?_,
    fun c => ?_, by simp [hlive, hfree], by simp⟩
  · rw [get?_setParent, get?_setNode]
    grind
  · rw [parent?_setParent, contains_setNode, parent?_setNode]
    grind
  · have hnodup : statements.Nodup := h.nodup b _ hb
    have hs' : s ∉ statements := by simp [hmem, hfree]
    exact List.nodup_append_comm.mp (List.nodup_cons.mpr ⟨hs', hnodup⟩)
  · simp [hmem, or_comm]

/-- A node in the place of another. -/
theorem Linked.relinks_swap (h : t.Linked) (hnode : t.parent? node = some p) (hp : t.get? p = some owner)
    (hr : t.isDetached r = true) :
    Relinks t p (owner.map fun child => if child = node then r else child) [r] [node]
      (((t.setNode p (owner.map fun child => if child = node then r else child)).setParent r (some p)).setParent
        node none) := by
  obtain ⟨-, hlive, hfree⟩ := isDetached_iff.mp hr
  have hp' : t.contains p = true := contains_iff.mpr ⟨_, hp⟩
  have hnode' := contains_of_parent? hnode
  have hmem (c : NodeId) : c ∈ owner.children ↔ t.parent? c = some p := h.mem_children_iff hp
  refine ⟨rfl, rfl, Nat.le_of_eq (by simp), .inl hp', fun y => ?_, fun y => ?_, ?_,
    fun c => ?_, by simp [hlive, hfree], by simp [hnode]⟩
  · rw [get?_setParent, get?_setParent, get?_setNode]
    grind
  · rw [parent?_setParent, parent?_setParent, contains_setParent, contains_setNode, parent?_setNode]
    grind
  · rw [Node.children_map]
    refine List.Nodup.map_on (fun a ha c hc heq => ?_) (h.nodup p _ hp)
    grind
  · rw [Node.children_map, List.mem_map]
    grind

/-- A statement out of its block. -/
theorem Linked.relinks_drop (h : t.Linked) (hnode : t.parent? node = some p)
    (hp : t.get? p = some (.block statements)) :
    Relinks t p (.block (statements.erase node)) [] [node]
      ((t.setNode p (.block (statements.erase node))).setParent node none) := by
  have hp' : t.contains p = true := contains_iff.mpr ⟨_, hp⟩
  have hnode' := contains_of_parent? hnode
  have hmem (c : NodeId) : c ∈ statements ↔ t.parent? c = some p := h.mem_children_iff hp
  have hnodup : statements.Nodup := h.nodup p _ hp
  refine ⟨rfl, rfl, Nat.le_of_eq (by simp), .inl hp', fun y => ?_, fun y => ?_,
    hnodup.erase node, fun c => ?_, by simp, by simp [hnode]⟩
  · rw [get?_setParent, get?_setNode]
    grind
  · rw [parent?_setParent, contains_setNode, parent?_setNode]
    grind
  · simp [hnodup.mem_erase_iff, hmem]

/-- What an operation does: one node has other children, and what it lost was freed with all below it. -/
structure Splices (t : Tree) (p : NodeId) (new gone : List NodeId) (t' : Tree) : Prop where
  detached : ∀ c ∈ new, t.isDetached c = true
  relinks : ∃ n t₁, Relinks t p n new gone t₁ ∧
    (∀ statements, t.get? p = some (.block statements) → ∃ statements', n = .block statements') ∧
    Clears (fun y => ∃ x ∈ gone, t₁.Below y x) t₁ t'

/-- A new node over its children. -/
theorem Linked.splices_add (h : t.Linked) (hok : t.add n = .ok (x, t')) :
    Splices t t.slots.size n.children [] t' := by
  obtain ⟨-, rfl, hdetached, hnodup⟩ := add_eq_ok hok
  have hlink := h.relinks_alloc hnodup fun c hc => (isDetached_iff.mp (hdetached c hc)).2
  refine ⟨hdetached, n, _, hlink, fun statements hsize => ?_, .refl (by simp)⟩
  exact absurd (lt_size_of_contains (contains_iff.mpr ⟨_, hsize⟩)) (Nat.lt_irrefl _)

/-- A block over one more statement. -/
theorem Linked.splices_push (h : t.Linked) (hok : t.pushStatement b s = .ok t') : Splices t b [s] [] t' := by
  obtain ⟨hs, statements, hb, rfl⟩ := pushStatement_eq_ok hok
  exact ⟨by simpa using hs, _, _, h.relinks_push hb hs, fun _ _ => ⟨_, rfl⟩, .refl (by simp)⟩

/-- What a node lost has no owner, and what is below it is freed. -/
theorem Relinks.clears_free {new : List NodeId} {t₁ : Tree} (hr : Relinks t p n new [x] t₁) (h : t.Linked) :
    Clears (fun y => ∃ z ∈ [x], t₁.Below y z) t₁ (t₁.free x) := by
  have hfree := hr.parent?_gone List.mem_cons_self
  have hlive := hr.contains_of (contains_of_parent? (hr.owned x List.mem_cons_self))
  exact ((hr.linked h).clears_free (.of_free hfree) hlive).congr (by simp)

/-- An owner over the replacement of one of its children. -/
theorem Linked.splices_replace (h : t.Linked) (hok : t.replace node r = .ok t') :
    ∃ p, t.parent? node = some p ∧ Splices t p [r] [node] t' := by
  obtain ⟨hr, p, owner, hp, howner, -, rfl⟩ := replace_eq_ok hok
  have hlink := h.relinks_swap hp howner hr
  refine ⟨p, hp, by simpa using hr, _, _, hlink, fun statements hblock => ?_, hlink.clears_free h⟩
  obtain rfl := Option.some.inj (howner.symm.trans hblock)
  exact ⟨_, Node.map_block ..⟩

/-- A block over one statement less. -/
theorem Linked.splices_remove (h : t.Linked) (hok : t.removeStatement node = .ok t') :
    ∃ p, t.parent? node = some p ∧ Splices t p [] [node] t' := by
  obtain ⟨p, statements, hp, howner, -, rfl⟩ := removeStatement_eq_ok hok
  have hlink := h.relinks_drop hp howner
  exact ⟨p, hp, by simp, _, _, hlink, fun _ _ => ⟨_, rfl⟩, hlink.clears_free h⟩

end Tree

namespace InPlace

variable {t t' : Tree} {n : Node NodeId} {b c p r s x node : NodeId}

/-- Making sure of one child. -/
theorem claim_on (seen : List NodeId) : ((claim c).run seen).on t =
    if t.isDetached c && !seen.contains c then some (.ok ((), c :: seen), t)
    else some (.error (.childUnavailable c), t) := by
  have hunfold : ((claim c).run seen).on t =
      ((if t.isDetached c && !seen.contains c then modifyThe (List NodeId) (c :: ·)
        else throw (.childUnavailable c) : StateT (List NodeId) (InPlace Tree.Misuse) Unit).run seen).on t := rfl
  rw [hunfold]
  split <;> rfl

/-- Making sure of all children changes nothing. -/
theorem claims_on (seen cs : List NodeId) : ((cs.forM claim).run seen).on t =
    match t.unavailable? seen cs with
    | none => some (.ok ((), cs.reverse ++ seen), t)
    | some c => some (.error (.childUnavailable c), t) := by
  induction cs generalizing seen with
  | nil => rfl
  | cons c rest ih =>
    have hclaim := claim_on (t := t) (c := c) seen
    rw [Tree.unavailable?]
    by_cases hc : (t.isDetached c && !seen.contains c) = true
    · rw [if_pos hc] at hclaim
      rw [if_pos hc, List.reverse_cons, List.append_assoc]
      exact (on_bind_ok hclaim _).trans (ih (c :: seen))
    · rw [if_neg hc] at hclaim
      rw [if_neg hc]
      exact on_bind_error hclaim _

/-- Owners are given one after another. -/
theorem setParents_on (cs : List NodeId) (p : NodeId) :
    (cs.forM fun child => modify (·.setParent child (some p)) : InPlace Tree.Misuse PUnit).on t =
      some (.ok (), cs.foldl (fun t child => t.setParent child (some p)) t) := by
  induction cs generalizing t with
  | nil => rfl
  | cons c rest ih => exact (on_modify_bind _ _).trans ih

/-- Adding a node in place. -/
theorem add_on (n : Node NodeId) : (add n).on t = some (outcome t (t.add n)) := by
  have hclaims := claims_on (t := t) [] n.children
  rw [add, on_get_bind, Tree.add]
  split
  · next c hc =>
    rw [hc] at hclaims
    have hrun : ((n.children.forM claim).run' []).on t = some (.error (.childUnavailable c), t) :=
      on_bind_error hclaims _
    exact on_bind_error hrun _
  · next hc =>
    rw [hc] at hclaims
    have hrun : ((n.children.forM claim).run' []).on t = some (.ok (), t) := on_bind_ok hclaims _
    rw [on_bind_ok hrun, on_bind_ok (setParents_on n.children t.slots.size)]
    rfl

/-- Pushing a statement in place. -/
theorem pushStatement_on (b s : NodeId) :
    (pushStatement b s).on t = some (outcome t ((t.pushStatement b s).map ((), ·))) := by
  rw [pushStatement, Tree.pushStatement, on_get_bind]
  by_cases hs : t.isDetached s = true
  · simp only [hs, Bool.not_true, Bool.false_eq_true, if_false, on_get_bind]
    cases t.get? b with
    | none => rfl
    | some owner => cases owner <;> rfl
  · simp [hs, outcome, Except.map]

/-- Replacing a node of a linked tree in place. -/
theorem replace_on (h : t.Linked) {depth : Nat} (hdepth : t.slots.size < depth) (node r : NodeId) :
    (replace depth node r).on t = some (outcome t ((t.replace node r).map ((), ·))) := by
  rw [replace, Tree.replace, on_get_bind]
  by_cases hnode : t.contains node = true
  · by_cases hr : t.isDetached r = true
    · simp only [hnode, hr, Bool.not_true, Bool.false_eq_true, if_false, on_get_bind]
      cases hp : t.parent? node with
      | none => rfl
      | some p =>
        obtain ⟨owner, howner, hmem⟩ := h.listed node p hp
        have hlink := h.relinks_swap hp howner hr
        have hfree := (hlink.linked h).free_on (ε := SpliceError) (.of_free (hlink.parent?_gone List.mem_cons_self))
          (hlink.contains_of hnode) (by simpa using hdepth)
        have hsame : owner.withChildren (owner.children.replace node r) =
            owner.map fun child => if child = node then r else child := by
          obtain ⟨hshape, hchildren⟩ := owner.withChildren_spec (owner.children.replace node r) (by simp)
          refine Node.eq_of_shape_eq (hshape.trans (Node.shape_map _ _).symm) ?_
          rw [hchildren, Node.children_map, replace_eq_map (h.nodup p owner howner)]
        simp only [howner, hmem, List.contains_eq_mem, decide_true, Bool.not_true, Bool.false_eq_true, if_false,
          on_get_bind, on_modify_bind, hsame, hfree]
        rfl
    · simp [hnode, hr, outcome, Except.map]
  · simp [hnode, outcome, Except.map]

/-- Removing a statement of a linked tree in place. -/
theorem removeStatement_on (h : t.Linked) {depth : Nat} (hdepth : t.slots.size < depth) (node : NodeId) :
    (removeStatement depth node).on t = some (outcome t ((t.removeStatement node).map ((), ·))) := by
  rw [removeStatement, Tree.removeStatement, on_get_bind]
  by_cases hnode : t.contains node = true
  · simp only [hnode, Bool.not_true, Bool.false_eq_true, if_false, on_get_bind]
    cases hp : t.parent? node with
    | none => rfl
    | some p =>
      obtain ⟨owner, howner, hmem⟩ := h.listed node p hp
      simp only [on_get_bind, howner]
      cases owner with
      | block statements =>
        have hmem : node ∈ statements := hmem
        have hlink := h.relinks_drop hp howner
        have hfree := (hlink.linked h).free_on (ε := SpliceError) (.of_free (hlink.parent?_gone List.mem_cons_self))
          (hlink.contains_of hnode) (by simpa using hdepth)
        simp only [hmem, List.contains_eq_mem, decide_true, Bool.not_true, Bool.false_eq_true, if_false,
          on_modify_bind, hfree]
        rfl
      | _ => rfl
  · simp [hnode, outcome, Except.map]

end InPlace

end Elementwise
