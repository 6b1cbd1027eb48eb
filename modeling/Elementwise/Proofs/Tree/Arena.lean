import Elementwise.Proofs.Tree.Term
import Elementwise.Tree.Splice

/-!
# Arenas that hold a tree

What the operations on an arena do to the node and the owner of a name. In a proper arena every node
owns its children and no node is below itself; there a term is read off node by node.
-/

namespace Elementwise.Tree

variable {t : Tree} {id x : NodeId}

/-- A slot after a change of one slot. -/
theorem slot?_modify (f : Slot → Slot) :
    (t.modify id f).slot? x = if id = x then (t.slot? x).map f else t.slot? x := by
  simp only [slot?, modify, Array.getElem?_modify]
  split
  · cases t.slots[x]? <;> rfl
  · rfl

/-- Giving a node an owner changes no node. -/
@[simp] theorem get?_setParent (parent : Option NodeId) : (t.setParent id parent).get? x = t.get? x := by
  rw [get?, setParent, slot?_modify]
  split
  · cases h : t.slot? x <;> simp [get?, h]
  · rfl

/-- The owner of a node after one was given. -/
theorem parent?_setParent (parent : Option NodeId) :
    (t.setParent id parent).parent? x = if id = x ∧ t.contains x then parent else t.parent? x := by
  rw [parent?, setParent, slot?_modify]
  by_cases h : id = x
  · cases hslot : t.slot? x <;> simp [parent?, contains, h, hslot]
  · simp [h, parent?]

/-- A node after it was changed. -/
theorem get?_setNode (n : Node NodeId) :
    (t.setNode id n).get? x = if id = x ∧ t.contains x then some n else t.get? x := by
  rw [get?, setNode, slot?_modify]
  by_cases h : id = x
  · cases hslot : t.slot? x <;> simp [get?, contains, h, hslot]
  · simp [h, get?]

/-- Changing a node changes no owner. -/
@[simp] theorem parent?_setNode (n : Node NodeId) : (t.setNode id n).parent? x = t.parent? x := by
  rw [parent?, setNode, slot?_modify]
  split
  · cases h : t.slot? x <;> simp [parent?, h]
  · rfl

theorem contains_iff : t.contains x = true ↔ ∃ n, t.get? x = some n := by
  cases h : t.slot? x <;> simp [contains, get?, h]

/-- Giving a node an owner changes no life. -/
@[simp] theorem contains_setParent (parent : Option NodeId) :
    (t.setParent id parent).contains x = t.contains x := by
  rw [Bool.eq_iff_iff, contains_iff, contains_iff]
  simp

/-- Changing a node changes no life. -/
@[simp] theorem contains_setNode (n : Node NodeId) : (t.setNode id n).contains x = t.contains x := by
  rw [Bool.eq_iff_iff, contains_iff, contains_iff, get?_setNode]
  split
  · next h => simpa [contains_iff] using h.2
  · rfl

@[simp] theorem size_setParent (parent : Option NodeId) : (t.setParent id parent).slots.size = t.slots.size := by
  simp [setParent, modify]

@[simp] theorem size_setNode (n : Node NodeId) : (t.setNode id n).slots.size = t.slots.size := by
  simp [setNode, modify]

theorem contains_of_parent? {p : NodeId} (h : t.parent? x = some p) : t.contains x = true := by
  cases hslot : t.slot? x <;> simp_all [contains, parent?]

/-- A live name lies in the arena. -/
theorem lt_size_of_contains (h : t.contains x = true) : x < t.slots.size := by
  simp only [contains, slot?] at h
  by_cases hx : x < t.slots.size
  · exact hx
  · simp [Array.getElem?_eq_none (Nat.le_of_not_lt hx)] at h

theorem slot?_of_size_le (h : t.slots.size ≤ x) : t.slot? x = none := by
  simp [slot?, Array.getElem?_eq_none h]

/-- A slot after one was emptied. -/
theorem slot?_clear : (t.clear id).slot? x = if id = x then none else t.slot? x := by
  simp only [slot?, clear, Array.getElem?_setIfInBounds]
  split
  · split <;> rfl
  · rfl

section

variable (children : List NodeId) (p : NodeId)

/-- Nodes after owners were given to several. -/
theorem get?_foldl_setParent : (children.foldl (fun t child => t.setParent child (some p)) t).get? x = t.get? x := by
  induction children generalizing t with
  | nil => rfl
  | cons c rest ih => rw [List.foldl_cons, ih, get?_setParent]

/-- The size of the arena after owners were given. -/
theorem size_foldl_setParent :
    (children.foldl (fun t child => t.setParent child (some p)) t).slots.size = t.slots.size := by
  induction children generalizing t with
  | nil => rfl
  | cons c rest ih => rw [List.foldl_cons, ih, size_setParent]

/-- The root after owners were given. -/
theorem root_foldl_setParent : (children.foldl (fun t child => t.setParent child (some p)) t).root = t.root := by
  induction children generalizing t with
  | nil => rfl
  | cons c rest ih => rw [List.foldl_cons, ih]; rfl

/-- The identity of the tree after owners were given. -/
theorem id_foldl_setParent : (children.foldl (fun t child => t.setParent child (some p)) t).id = t.id := by
  induction children generalizing t with
  | nil => rfl
  | cons c rest ih => rw [List.foldl_cons, ih]; rfl

/-- Owners after one was given to several. -/
theorem parent?_foldl_setParent :
    (children.foldl (fun t child => t.setParent child (some p)) t).parent? x =
      if x ∈ children ∧ t.contains x then some p else t.parent? x := by
  induction children generalizing t with
  | nil => simp
  | cons c rest ih =>
    rw [List.foldl_cons, ih, contains_setParent, parent?_setParent]
    by_cases hlive : t.contains x = true
    · by_cases hx : x ∈ rest <;> by_cases hc : c = x <;> simp [hx, hc, hlive, eq_comm]
      exact fun h => absurd h.symm hc
    · simp [hlive]

end

theorem alloc_fst (n : Node NodeId) : (t.alloc n).1 = t.slots.size := rfl

theorem size_alloc (n : Node NodeId) : (t.alloc n).2.slots.size = t.slots.size + 1 := by
  simp [alloc, size_foldl_setParent]

@[simp] theorem root_alloc (n : Node NodeId) : (t.alloc n).2.root = t.root := by
  simp [alloc, root_foldl_setParent]

@[simp] theorem id_alloc (n : Node NodeId) : (t.alloc n).2.id = t.id := by
  simp [alloc, id_foldl_setParent]

/-- A slot of an arena with one more. -/
theorem slot?_push (s : Option Slot) :
    ({ t with slots := t.slots.push s } : Tree).slot? x = if x = t.slots.size then s else t.slot? x := by
  simp only [slot?, Array.getElem?_push]
  split <;> simp

/-- Nodes after one was allocated. -/
theorem get?_alloc (n : Node NodeId) :
    (t.alloc n).2.get? x = if x = t.slots.size then some n else t.get? x := by
  have hfold := get?_foldl_setParent (t := t) (x := x) n.children t.slots.size
  simp only [alloc, get?, slot?_push, size_foldl_setParent]
  split
  · rfl
  · exact hfold

/-- Owners after a node was allocated: it has none, and its children have it. -/
theorem parent?_alloc (n : Node NodeId) :
    (t.alloc n).2.parent? x = if x ∈ n.children ∧ t.contains x then some t.slots.size else t.parent? x := by
  rw [← parent?_foldl_setParent]
  simp only [alloc, parent?, slot?_push, size_foldl_setParent]
  split
  · next hx => rw [slot?_of_size_le (Nat.le_of_eq (by rw [size_foldl_setParent, hx]))]; rfl
  · rfl

/-- A push that is not refused: the block ends with the statement. -/
theorem pushStatement_eq_ok {t' : Tree} {block statement : NodeId} (h : t.pushStatement block statement = .ok t') :
    t.isDetached statement = true ∧ ∃ statements, t.get? block = some (.block statements) ∧
      t' = (t.setNode block (.block (statements ++ [statement]))).setParent statement (some block) := by
  unfold pushStatement at h
  split at h
  · cases h
  · next hdetached =>
    split at h
    · next statements hblock => exact ⟨by simpa using hdetached, statements, hblock, (Except.ok.inj h).symm⟩
    · cases h

/-- A splice that is not refused: the owner of the node has the replacement in its place. -/
theorem replace_eq_ok {t' : Tree} {node replacement : NodeId} (h : t.replace node replacement = .ok t') :
    t.isDetached replacement = true ∧
      ∃ p owner, t.parent? node = some p ∧ t.get? p = some owner ∧ node ∈ owner.children ∧
        t' = ((((t.setNode p (owner.map fun child => if child = node then replacement else child)).setParent
          replacement (some p)).setParent node none).free node) := by
  unfold replace at h
  split at h
  · cases h
  · split at h
    · cases h
    · next hdetached =>
      split at h
      · cases h
      · next p hp =>
        split at h
        · cases h
        · next owner howner =>
          split at h
          · next hmem =>
            exact ⟨by simpa using hdetached, p, owner, hp, howner, by simpa using hmem, (Except.ok.inj h).symm⟩
          · cases h

/-- A removal that is not refused: the block of the statement is without it. -/
theorem removeStatement_eq_ok {t' : Tree} {node : NodeId} (h : t.removeStatement node = .ok t') :
    ∃ p statements, t.parent? node = some p ∧ t.get? p = some (.block statements) ∧ node ∈ statements ∧
      t' = ((t.setNode p (.block (statements.erase node))).setParent node none).free node := by
  unfold removeStatement at h
  split at h
  · cases h
  · split at h
    · cases h
    · next p hp =>
      split at h
      · next statements hblock =>
        split at h
        · next hmem => exact ⟨p, statements, hp, hblock, by simpa using hmem, (Except.ok.inj h).symm⟩
        · cases h
      · cases h

/-- An arena with more nodes at the end. -/
structure Grows (t t' : Tree) : Prop where
  id : t'.id = t.id
  root : t'.root = t.root
  size : t.slots.size ≤ t'.slots.size
  get? : ∀ x < t.slots.size, t'.get? x = t.get? x
  parent? : ∀ x < t.slots.size, t'.parent? x = t.parent? x

namespace Grows

variable {t' t'' : Tree}

theorem refl (t : Tree) : t.Grows t := ⟨rfl, rfl, Nat.le_refl _, fun _ _ => rfl, fun _ _ => rfl⟩

theorem trans (h : t.Grows t') (h' : t'.Grows t'') : t.Grows t'' where
  id := h'.id.trans h.id
  root := h'.root.trans h.root
  size := Nat.le_trans h.size h'.size
  get? x hx := (h'.get? x (Nat.lt_of_lt_of_le hx h.size)).trans (h.get? x hx)
  parent? x hx := (h'.parent? x (Nat.lt_of_lt_of_le hx h.size)).trans (h.parent? x hx)

/-- The arena grows when a node is put over new nodes. -/
theorem alloc (h : t.Grows t') {n : Node NodeId} (hnew : ∀ x ∈ n.children, t.slots.size ≤ x) :
    t.Grows (t'.alloc n).2 where
  id := (id_alloc n).trans h.id
  root := (root_alloc n).trans h.root
  size := by
    rw [size_alloc]
    exact Nat.le_succ_of_le h.size
  get? x hx := by
    rw [get?_alloc, if_neg (Nat.ne_of_lt (Nat.lt_of_lt_of_le hx h.size))]
    exact h.get? x hx
  parent? x hx := by
    rw [parent?_alloc, if_neg fun hmem => absurd hx (Nat.not_lt.mpr (hnew x hmem.1))]
    exact h.parent? x hx

theorem get?_of_some (h : t.Grows t') {n : Node NodeId} (hget : t.get? x = some n) : t'.get? x = some n :=
  (h.get? x (lt_size_of_contains (contains_iff.mpr ⟨n, hget⟩))).trans hget

/-- A live name stays live. -/
theorem contains (h : t.Grows t') (hx : t.contains x = true) : t'.contains x = true := by
  obtain ⟨n, hn⟩ := contains_iff.mp hx
  exact contains_iff.mpr ⟨n, h.get?_of_some hn⟩

theorem parent?_of_some (h : t.Grows t') {p : NodeId} (hp : t.parent? x = some p) : t'.parent? x = some p :=
  (h.parent? x (lt_size_of_contains (contains_of_parent? hp))).trans hp

end Grows

/-- With nodes ranked above their children, a term needs no more depth than the rank of its node. -/
theorem termWithin_eq {S : NodeId → Prop} {rank : NodeId → Nat}
    (hrank : ∀ p n, S p → t.get? p = some n → ∀ c ∈ n.children, S c ∧ rank c < rank p) {depth depth' : Nat}
    (hid : S id) (h : rank id < depth) (h' : rank id < depth') : t.termWithin depth id = t.termWithin depth' id := by
  induction depth generalizing depth' id with
  | zero => omega
  | succ depth ih =>
    obtain ⟨depth', rfl⟩ : ∃ n, depth' = n + 1 := ⟨depth' - 1, by omega⟩
    rw [termWithin, termWithin]
    cases hget : t.get? id with
    | none => rfl
    | some n =>
      have hmap : n.map (t.termWithin depth) = n.map (t.termWithin depth') := by
        refine Node.map_congr fun c hc => ?_
        obtain ⟨hchild, hlt⟩ := hrank id n hid hget c hc
        exact ih hchild (by omega) (by omega)
      exact congrArg (Term.node id) hmap

end Elementwise.Tree
