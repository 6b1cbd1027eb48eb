import Elementwise.Proofs.Table
import Elementwise.Proofs.Tree.Term
import Elementwise.Registry.Build

/-!
# The scan of a program

A registry is made by a walk that marks the field at the root of every change when it comes to the change, and
records a field as written if its node is marked. The uses that are recorded can be told without marks, by passing
down whether a node is what is changed. The first field that the walk comes to after a mark is the marked one, so a
mark that is left from before makes no difference: the entry of its field is writable already.
-/

namespace Elementwise

/-- The children of a node, each with whether it is changed; `changed` tells whether the node is. -/
@[simp] def Node.marked {α : Type} (changed : Bool) : Node α → List (Bool × α)
  | .unpack array index column => (changed, array) :: (index :: column.toList).map (false, ·)
  | .assign target source _ => [(true, target), (false, source)]
  | .crement _ _ target => [(true, target)]
  | n => n.children.map (false, ·)

@[simp] theorem Node.map_snd_marked {α : Type} (changed : Bool) (n : Node α) :
    (n.marked changed).map Prod.snd = n.children := by
  cases n <;> simp [children, Function.comp_def]

/-- What is marked is a child. -/
theorem Node.mem_children_of_marked {α : Type} {changed : Bool} {n : Node α} {c : Bool × α}
    (h : c ∈ n.marked changed) : c.2 ∈ n.children := by
  rw [← map_snd_marked changed n]
  exact List.mem_map_of_mem h

/-- The use that a field node is. -/
@[simp] def Node.fieldUse? {α : Type} (id : NodeId) (changed : Bool) : Node α → Option FieldUse
  | .field name ty inferred writable => some ⟨id, name, ty, inferred, writable || changed⟩
  | _ => none

/-- The uses of fields in a term, in order; `changed` tells whether the term is what is changed. -/
def Term.fieldUses (changed : Bool) : Term → List FieldUse
  | .missing _ => []
  | .node id content =>
    (content.fieldUse? id changed).toList ++ (content.marked changed).attach.flatMap fun c => c.1.2.fieldUses c.1.1
termination_by t => sizeOf t
decreasing_by
  have hlt := Node.sizeOf_lt_of_mem (Node.mem_children_of_marked c.2)
  simp only [Term.node.sizeOf_spec]
  omega

/-- The uses in a node: its own, then those in its children. -/
theorem Term.fieldUses_node (changed : Bool) (id : NodeId) (content : Node Term) :
    (Term.node id content).fieldUses changed =
      (content.fieldUse? id changed).toList ++ (content.marked changed).flatMap fun c => c.2.fieldUses c.1 := by
  rw [fieldUses, List.flatMap_subtype (g := fun c => c.2.fieldUses c.1) fun _ _ => rfl, List.unattach_attach]

/-- A field node is a use of its own. -/
theorem Term.mem_fieldUses (changed : Bool) (id : NodeId) (name : String) (ty : Ty) (inferred writable : Bool) :
    ⟨id, name, ty, inferred, writable || changed⟩ ∈
      (Term.node id (.field name ty inferred writable)).fieldUses changed := by
  rw [fieldUses_node]
  exact List.mem_cons_self

namespace Registry

variable {spanOf : NodeId → Option Span} {r : Registry} {sink : Sink} {u : FieldUse}

/-- The registry after a use. -/
theorem addUse_fst : (addUse spanOf (r, sink) u).1 =
    if r.target = .volumes && !u.ty.isNumeric then r else (r.register u.name u.ty u.writable).2 := by
  unfold addUse
  dsimp only
  split
  · rfl
  · split <;> simp_all

theorem target_addUse : (addUse spanOf (r, sink) u).1.target = r.target := by
  rw [addUse_fst]
  split <;> rfl

/-- There is an entry for a field that can be recorded, and it is writable. -/
def Writes (r : Registry) (name : String) (ty : Ty) : Prop :=
  (r.target = .volumes → ty.isNumeric = true) → ∃ e, r.get? name = some e ∧ e.writable = true

/-- What is writable stays so. -/
theorem Writes.addUse {name : String} {ty : Ty} (h : r.Writes name ty) :
    (addUse spanOf (r, sink) u).1.Writes name ty := by
  intro hfits
  rw [target_addUse] at hfits
  obtain ⟨e, hget, hwritable⟩ := h hfits
  rw [addUse_fst]
  split
  · exact ⟨e, hget, hwritable⟩
  · simp only [register, get?, Table.get?_insert]
    split
    · next hname => exact ⟨_, rfl, by simp_all [get?]⟩
    · exact ⟨e, hget, hwritable⟩

/-- A field that was recorded as written is writable. -/
theorem writes_addUse (h : u.writable = true) : (addUse spanOf (r, sink) u).1.Writes u.name u.ty := by
  intro hfits
  rw [target_addUse] at hfits
  rw [addUse_fst, if_neg (by simpa using hfits)]
  simp only [register, get?, Table.get?_insert, if_true]
  exact ⟨_, rfl, by simp [h]⟩

/-- Where a field is writable already, it does not matter whether a use is written. -/
theorem Writes.addUse_eq (h : r.Writes u.name u.ty) (writable : Bool) :
    Registry.addUse spanOf (r, sink) { u with writable } = Registry.addUse spanOf (r, sink) u := by
  by_cases hfits : r.target = .volumes → u.ty.isNumeric = true
  · obtain ⟨e, hget, hwritable⟩ := h hfits
    have hregister : r.register u.name u.ty writable = r.register u.name u.ty u.writable := by
      simp [register, hget, hwritable]
    simp only [Registry.addUse, hregister]
    rfl
  · have hgrid : (r.target = .volumes && !u.ty.isNumeric) = true := by simpa using hfits
    simp only [Registry.addUse, hgrid, if_true]
    rfl

end Registry

namespace Scan

variable {spanOf : NodeId → Option Span} {t : Tree} {s s' s'' : Scan} {uses uses' : List FieldUse}

/-- Every marked field is writable. -/
def Sound (t : Tree) (s : Scan) : Prop := ∀ id ∈ s.written, ∀ name ty inferred writable,
  t.get? id = some (.field name ty inferred writable) → s.registry.Writes name ty

/-- A scan goes on from one state to another by recording uses. -/
def Collects (t : Tree) (spanOf : NodeId → Option Span) (s s' : Scan) (uses : List FieldUse) : Prop :=
  (s'.registry, s'.sink) = uses.foldl (Registry.addUse spanOf) (s.registry, s.sink) ∧ s'.Sound t

theorem Collects.append (h : Collects t spanOf s s' uses) (h' : Collects t spanOf s' s'' uses') :
    Collects t spanOf s s'' (uses ++ uses') := by
  refine ⟨?_, h'.2⟩
  rw [List.foldl_append, ← h.1]
  exact h'.1

/-- A field is recorded as it is in the tree, whatever was marked before, and as written if it was marked itself. -/
theorem collects_record (hs : s.Sound t) {u : FieldUse}
    (hget : t.get? u.id = some (.field u.name u.ty u.inferred u.writable)) :
    Collects t spanOf s (s.record spanOf u) [u] ∧
      Collects t spanOf s ({ s with written := u.id :: s.written }.record spanOf u)
        [{ u with writable := u.writable || true }] := by
  have hrecord : Registry.addUse spanOf (s.registry, s.sink)
      { u with writable := u.writable || s.written.contains u.id } = Registry.addUse spanOf (s.registry, s.sink) u := by
    by_cases hmem : u.id ∈ s.written
    · exact (hs u.id hmem _ _ _ _ hget).addUse_eq _
    · simp [hmem]
  have hmarked : (u.writable || (u.id :: s.written).contains u.id) = (u.writable || true) := by simp
  refine ⟨⟨hrecord, fun id hid name ty inferred writable hfield => ?_⟩,
    congrArg (fun w => Registry.addUse spanOf (s.registry, s.sink) { u with writable := w }) hmarked,
    fun id hid name ty inferred writable hfield => ?_⟩
  · exact (hs id hid name ty inferred writable hfield).addUse
  · rcases List.mem_cons.mp hid with rfl | hid
    · obtain ⟨rfl, rfl, -, -⟩ := Node.field.inj (Option.some.inj (hget.symm.trans hfield))
      exact Registry.writes_addUse (u := { u with writable := _ }) (by simp)
    · exact (hs id hid name ty inferred writable hfield).addUse

/-- The scan visits the children of every node. -/
theorem walk_node (id : NodeId) (content : Node Term) (s : Scan) : (visitor spanOf).walk (.node id content) s =
    content.children.foldl (fun s c => (visitor spanOf).walk c s) ((visitor spanOf).visit id content s).1 := by
  rw [← Visitor.walkNode_eq]
  cases content <;> rfl

/-- Terms one after another. -/
theorem collects_foldl (cs : List Term) (h : ∀ c ∈ cs, ∀ s : Scan, s.Sound t →
      Collects t spanOf s ((visitor spanOf).walk c s) (c.fieldUses false)) (hs : s.Sound t) :
    Collects t spanOf s (cs.foldl (fun s c => (visitor spanOf).walk c s) s) (cs.flatMap (Term.fieldUses false)) := by
  induction cs generalizing s with
  | nil => exact ⟨rfl, hs⟩
  | cons c rest ih =>
    rw [List.forall_mem_cons] at h
    have hfirst := h.1 s hs
    exact hfirst.append (ih h.2 hfirst.2)

/-- The walk over a term whose field nodes are those of the tree records its uses, and those of what is changed if the
field at its root was marked right before. -/
theorem collects_walk (term : Term) (hfields : ∀ id name ty inferred writable,
      Term.Within (.node id (.field name ty inferred writable)) term →
        t.get? id = some (.field name ty inferred writable)) (hs : s.Sound t) :
    Collects t spanOf s ((visitor spanOf).walk term s) (term.fieldUses false) ∧
      Collects t spanOf s ((visitor spanOf).walk term (s.mark term)) (term.fieldUses true) := by
  induction term using Term.children_induction generalizing s with
  | missing id =>
    rw [Term.fieldUses, Term.fieldUses]
    exact ⟨⟨rfl, hs⟩, ⟨rfl, hs⟩⟩
  | node id content ih =>
    have hchild (c : Term) (hc : c ∈ content.children) {s : Scan} (hs : s.Sound t) :=
      ih c hc (fun _ _ _ _ _ hin => hfields _ _ _ _ _ (.child hc hin)) hs
    have hplain {cs : List Term} (hcs : cs ⊆ content.children) {s : Scan} (hs : s.Sound t) :=
      collects_foldl cs (fun c hc _ hs => (hchild c (hcs hc) hs).1) hs
    rw [Term.fieldUses_node, Term.fieldUses_node, walk_node, walk_node]
    cases content with
    | field name ty inferred writable =>
      have hget := hfields id name ty inferred writable (.self _)
      simp only [Node.fieldUse?, Node.marked, Node.children, Option.toList, Bool.or_false, List.map_nil,
        List.flatMap_nil, List.append_nil]
      exact collects_record (u := ⟨id, name, ty, inferred, writable⟩) hs hget
    | assign target value compound =>
      have htarget := (hchild target (by simp) hs).2
      have hboth := htarget.append (hchild value (by simp) htarget.2).1
      simp only [Node.fieldUse?, Node.marked, Option.toList, List.nil_append, List.flatMap_cons, List.flatMap_nil,
        List.append_nil]
      exact ⟨hboth, hboth⟩
    | crement op post target =>
      have htarget := (hchild target (by simp) hs).2
      simp only [Node.fieldUse?, Node.marked, Option.toList, List.nil_append, List.flatMap_cons, List.flatMap_nil,
        List.append_nil]
      exact ⟨htarget, htarget⟩
    | unpack array index column =>
      obtain ⟨harray, hmarked⟩ := hchild array (by simp) hs
      have hrest : index :: column.toList ⊆ (Node.unpack array index column).children := by simp
      simp only [Node.fieldUse?, Node.marked, Option.toList_none, List.nil_append, List.flatMap_cons, List.flatMap_map]
      exact ⟨harray.append (hplain hrest harray.2), hmarked.append (hplain hrest hmarked.2)⟩
    | _ =>
      simp only [Node.fieldUse?, Node.marked, Option.toList_none, List.nil_append, List.flatMap_map]
      exact ⟨hplain (List.Subset.refl _) hs, hplain (List.Subset.refl _) hs⟩

end Scan

/-- A field node in a term of a tree is one of the tree. -/
theorem Tree.get?_of_within {t : Tree} {depth : Nat} {x id : NodeId} {name : String} {ty : Ty}
    {inferred writable : Bool} (h : Term.Within (.node id (.field name ty inferred writable)) (t.termWithin depth x)) :
    t.get? id = some (.field name ty inferred writable) := by
  induction depth generalizing x with
  | zero => cases h
  | succ depth ih =>
    cases hget : t.get? x with
    | none =>
      simp only [termWithin, hget] at h
      cases h
    | some n =>
      simp only [termWithin, hget] at h
      generalize hcontent : n.map (t.termWithin depth) = content at h
      cases h with
      | self =>
        have hkind : n.kind = .field := by rw [← n.kind_map (t.termWithin depth), hcontent]; rfl
        cases n with
        | field =>
          obtain ⟨rfl, rfl, rfl, rfl⟩ := Node.field.inj hcontent
          exact hget
        | _ => cases hkind
      | child hc h =>
        rw [← hcontent, Node.children_map] at hc
        obtain ⟨y, -, rfl⟩ := List.mem_map.mp hc
        exact ih h

/-- The registry of a program is what its uses of fields make, of any tree. -/
theorem Registry.build_eq (t : Tree) (target : Target) (map : SourceMap) (sink : Sink) :
    build t target map sink = (t.program.fieldUses false).foldl (addUse (map.lookup t)) ({ target }, sink) := by
  have hsound : Scan.Sound t { registry := { target }, sink } := fun id hid => by simp at hid
  exact (Scan.collects_walk t.program (fun _ _ _ _ _ => Tree.get?_of_within) hsound).1.1

end Elementwise
