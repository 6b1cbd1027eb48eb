import Elementwise.Proofs.Registry.Recorded
import Elementwise.Proofs.Tree.Reachable

/-!
# The registry of a tree is what its field nodes say

A registry is built in one traversal that carries along whether a node is being changed. What it holds can
be read off the tree: the field nodes in preorder, and which nodes are what an assignment or a step
changes. The entries are the names of these nodes in the order of their first occurrence, and there is one
error for each node that is at odds with the first of its name or, for volumes, has no numeric type.
-/

namespace Elementwise

/-- What an assignment or a step changes: its target, and the array that a component of what is changed is
taken from. -/
inductive Tree.Changed (t : Tree) : NodeId → Prop
  | assigned {x target value : NodeId} {compound : Option BinaryOp}
      (h : t.get? x = some (.assign target value compound)) : Changed t target
  | stepped {x target : NodeId} {op : CrementOp} {post : Bool}
      (h : t.get? x = some (.crement op post target)) : Changed t target
  | array {x array index : NodeId} {column : Option NodeId}
      (h : t.get? x = some (.unpack array index column)) (hx : Changed t x) : Changed t array

/-- A use of a field as its node has it: with its own hint, whatever changes it. -/
def Tree.fieldNode? (t : Tree) (x : NodeId) : Option FieldUse :=
  match t.get? x with
  | some (.field name ty inferred writable) => some ⟨x, name, ty, inferred, writable⟩
  | _ => none

/-- The field nodes of a tree, in preorder. -/
def Tree.fieldNodes (t : Tree) : List FieldUse := t.preorder.filterMap t.fieldNode?

/-- The field nodes that a registry for a target has entries for. -/
def Tree.accesses (t : Tree) (target : Target) : List FieldUse := t.fieldNodes.filter (FieldUse.fits target)

/-- The children that stand in place of others have their marks. -/
theorem Node.marked_map {α β : Type} (changed : Bool) (f : α → β) (n : Node α) :
    (n.map f).marked changed = (n.marked changed).map (Prod.map id f) := by
  cases n with
  | block | call | pack | loop | declare | unpack => simp [Option.toList_map, Function.comp_def]
  | _ => rfl

/-- What holds of the uses in a node holds of those in its children. -/
theorem Term.forall_fieldUses_of_marked {P : FieldUse → Prop} {id : NodeId} {content : Node Term} {changed : Bool}
    (h : ∀ u ∈ (Term.node id content).fieldUses changed, P u) {c : Bool × Term} (hc : c ∈ content.marked changed) :
    ∀ u ∈ c.2.fieldUses c.1, P u := by
  intro u hu
  apply h
  rw [Term.fieldUses_node]
  exact List.mem_append_right _ (List.mem_flatMap.mpr ⟨c, hc, hu⟩)

namespace Tree

variable {t : Tree} {x : NodeId} {n : Node NodeId}

/-- What is changed has an owner. -/
theorem Changed.owned (h : t.Changed x) (hlinked : t.Linked) : ∃ p, t.parent? x = some p := by
  cases h with
  | assigned h | stepped h | array h => exact ⟨_, hlinked.owns _ _ h x (by simp)⟩

/-- The marks of the children tell what is changed if the mark of the node does. -/
theorem Linked.marked_iff (h : t.Linked) (hget : t.get? x = some n) {changed : Bool}
    (hx : changed = true ↔ t.Changed x) {c : Bool × NodeId} (hc : c ∈ n.marked changed) :
    c.1 = true ↔ t.Changed c.2 := by
  constructor
  · intro hmark
    cases n with
    | unpack array index column =>
      rcases List.mem_cons.mp hc with rfl | hc
      · exact .array hget (hx.mp hmark)
      · obtain ⟨y, -, rfl⟩ := List.mem_map.mp hc
        cases hmark
    | assign target source compound =>
      rcases List.mem_cons.mp hc with rfl | hc
      · exact .assigned hget
      · obtain rfl := List.mem_singleton.mp hc
        cases hmark
    | crement op post target =>
      obtain rfl := List.mem_singleton.mp hc
      exact .stepped hget
    | _ =>
      obtain ⟨y, -, rfl⟩ := List.mem_map.mp hc
      cases hmark
  · intro hchanged
    have hchild : c.2 ∈ n.children := Node.mem_children_of_marked hc
    -- nothing but this node has the child, and it marks it once
    have howner {p : NodeId} {m : Node NodeId} (hp : t.get? p = some m) (hm : c.2 ∈ m.children) : p = x ∧ m = n := by
      obtain rfl : p = x := Option.some.inj ((h.owns p m hp _ hm).symm.trans (h.owns x n hget _ hchild))
      exact ⟨rfl, Option.some.inj (hp.symm.trans hget)⟩
    have hnodup : ((n.marked changed).map Prod.snd).Nodup := by
      rw [Node.map_snd_marked]
      exact h.nodup x n hget
    have hmark {mark : Bool} (hmem : (mark, c.2) ∈ n.marked changed) : c.1 = mark :=
      congrArg Prod.fst (List.inj_on_of_nodup_map hnodup hc hmem rfl)
    cases hchanged with
    | assigned hp | stepped hp =>
      obtain ⟨rfl, rfl⟩ := howner hp (by simp)
      exact hmark (by simp)
    | array hp hchanged =>
      obtain ⟨rfl, rfl⟩ := howner hp (by simp)
      exact (hmark (by simp)).trans (hx.mpr hchanged)

open Classical in
/-- A field node as a use in the program: also written if it is what is changed. -/
noncomputable def asUsed (t : Tree) (u : FieldUse) : FieldUse := { u with writable := u.writable || t.Changed u.id }

/-- The uses below a node are its field nodes, in order. -/
theorem Linked.fieldUses_term (h : t.Linked) (hx : t.Grounded x) (hlive : t.contains x = true) :
    ∀ changed, (changed = true ↔ t.Changed x) →
      (t.term x).fieldUses changed = ((t.term x).ids.filterMap t.fieldNode?).map t.asUsed := by
  refine h.grounded_induction (fun x n hget hx ih changed hchanged => ?_) hx hlive
  have hchildren : ((n.map t.term).marked changed).flatMap (fun c => c.2.fieldUses c.1) =
      (((n.children.flatMap fun c => (t.term c).ids).filterMap t.fieldNode?).map t.asUsed) := by
    rw [Node.marked_map, List.flatMap_map, List.filterMap_flatMap, List.map_flatMap, ← Node.map_snd_marked changed n,
      List.flatMap_map]
    refine List.flatMap_congr fun c hc => ?_
    exact ih c.2 (Node.mem_children_of_marked hc) c.1 (h.marked_iff hget hchanged hc)
  have hown : ((n.map t.term).fieldUse? x changed).toList = ((t.fieldNode? x).map t.asUsed).toList := by
    rw [fieldNode?, hget]
    cases n with
    | field name ty inferred writable =>
      classical
      have hmark : changed = decide (t.Changed x) := by
        rw [Bool.eq_iff_iff, decide_eq_true_iff]
        exact hchanged
      rw [hmark]
      rfl
    | _ => rfl
  rw [h.ids_term hx hget, h.term_eq hx hget, Term.fieldUses_node, hown, hchildren, List.filterMap_cons]
  cases t.fieldNode? x <;> rfl

/-- The uses of a program are its field nodes, in preorder. -/
theorem Linked.fieldUses_program (h : t.Linked) (hroot : t.Rooted) :
    t.program.fieldUses false = t.fieldNodes.map t.asUsed := by
  rw [fieldNodes, h.preorder_eq hroot]
  refine h.fieldUses_term hroot.grounded hroot.live false ⟨nofun, fun hchanged => ?_⟩
  obtain ⟨p, hp⟩ := hchanged.owned h
  exact absurd (hroot.free.symm.trans hp) (by simp)

open FieldUse

/-- What is wrong with field nodes is what is wrong with them as uses. -/
theorem complaints_asUsed (target : Target) (spanOf : NodeId → Option Span) (nodes : List FieldUse) :
    complaints target spanOf (nodes.map t.asUsed) = complaints target spanOf nodes := by
  have hfits : (nodes.map t.asUsed).filter (fits target) = (nodes.filter (fits target)).map t.asUsed :=
    List.filter_map
  rw [complaints, hfits, List.filterMap_map]
  refine List.filterMap_congr fun u _ => ?_
  simp only [Function.comp_apply, complaint?, firstTy?, List.find?_map, Option.map_map]
  rfl

/-- The entry in a slot when the field nodes of a tree were recorded as uses. -/
theorem entry_of_records {r : Registry} {nodes : List FieldUse} (h : r.Records (nodes.map t.asUsed)) {i : Nat}
    {e : Entry} (he : r.at? i = some e) : e.index = i ∧ firstTy? nodes e.name = some e.ty ∧
      (e.writable = true ↔ ∃ u ∈ nodes, u.name = e.name ∧ (u.writable = true ∨ t.Changed u.id)) := by
  obtain ⟨-, hget, hindex⟩ := h.get?_of_at? he
  obtain ⟨-, hty, hwritable⟩ := h.entry e.name e hget
  refine ⟨hindex, ?_, ?_⟩
  · rw [← hty, firstTy?, firstTy?, List.find?_map, Option.map_map]
    rfl
  · rw [hwritable]
    simp only [List.mem_map, exists_exists_and_eq_and, asUsed, Bool.or_eq_true, decide_eq_true_eq]

/-- A registry holds what the field nodes of its tree say: the distinct names of those that the target can
have, in the order of their first occurrence; each entry at the position of its slot, with the type of the
first occurrence, and writable exactly if one occurrence has the hint or is what an assignment or a step
changes. The errors are one conflict for each occurrence of another type than the first of its name, and one
for each field node that a volume cannot hold. -/
theorem Reachable.registry_exact (h : t.Reachable) (target : Target) (map : SourceMap) (sink : Sink) :
    let built := Registry.build t target map sink
    let accesses := t.accesses target
    let errors := complaints target (map.lookup t) t.fieldNodes
    (built.1.target = target ∧ built.1.list.map Entry.name = (accesses.map FieldUse.name).eraseDups) ∧
    (∀ i e, built.1.at? i = some e → e.index = i ∧ firstTy? accesses e.name = some e.ty ∧
      (e.writable = true ↔ ∃ u ∈ accesses, u.name = e.name ∧ (u.writable = true ∨ t.Changed u.id))) ∧
    built.2 = sink.extend errors ∧ (∀ d ∈ errors, d.severity = .error) ∧
    errors.countP (·.kind = .typeConflict) = accesses.countP (fun u => firstTy? accesses u.name ≠ some u.ty) ∧
    errors.countP (·.kind = .semantic) = t.fieldNodes.countP (fun u => !u.fits target) ∧
    built.2.errors = sink.errors + errors.countP (·.kind = .typeConflict) + errors.countP (·.kind = .semantic) := by
  obtain ⟨hlinked, hrooted⟩ := h.linked_rooted
  obtain ⟨hrecords, hsink⟩ := Registry.build_records t target map sink
  have hfits : (t.fieldNodes.map t.asUsed).filter (fits target) = (t.accesses target).map t.asUsed := List.filter_map
  rw [hlinked.fieldUses_program hrooted] at hrecords hsink
  rw [hfits] at hrecords
  rw [complaints_asUsed] at hsink
  refine ⟨⟨(Registry.build_keeps t target map sink).2.1, ?_⟩, fun i e he => entry_of_records hrecords he, hsink,
    fun d hd => (error_of_mem_complaints hd).1, countP_conflict .., countP_notAGrid .., ?_⟩
  · rw [hrecords.list_names, hrecords.names, List.map_map]
    rfl
  · rw [hsink, Sink.errors_extend fun d hd => (error_of_mem_complaints hd).1, length_complaints, Nat.add_assoc]

/-- A component of a vector is assigned, and the vector's name is then used as a number: the vector is writable
though no node has the hint, and the second use is reported. -/
theorem Reachable.registry_exact_component :
    let t := [Call.add (.field "v" .vec3f false false), .add (.value (.int32 0)), .add (.unpack 1 2 none),
      .add (.field "b" .float false false), .add (.assign 3 4 none), .pushStatement 0 5,
      .add (.field "v" .float false false), .pushStatement 0 6].foldl Call.after (.empty 0)
    let built := Registry.build t .volumes (.empty t) {}
    Reachable t ∧ t.Changed 1 ∧ built.1.list = [⟨"v", .vec3f, true, 0⟩, ⟨"b", .float, false, 1⟩] ∧
      built.1.list.map Entry.name = ((t.accesses .volumes).map FieldUse.name).eraseDups ∧
      built.2.errors = 1 := by
  intro t built
  have ht : Reachable t := (Reachable.empty 0).calls (by simp [Call.Permitted])
  obtain ⟨⟨-, hnames⟩, -, -, -, hconflicts, hothers, herrors⟩ := registry_exact ht .volumes (.empty t) {}
  have hunpack : t.get? 3 = some (.unpack 1 2 none) := by decide
  have hassign : t.get? 5 = some (.assign 3 4 none) := by decide
  refine ⟨ht, .array hunpack (.assigned hassign), by decide, hnames, ?_⟩
  rw [herrors, hconflicts, hothers]
  decide

end Tree

end Elementwise
