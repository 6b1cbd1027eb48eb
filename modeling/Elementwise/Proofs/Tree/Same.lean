import Elementwise.Proofs.Tree.Import
import Elementwise.Proofs.Tree.Preorder
import Elementwise.Tree.Text

/-!
# The same syntax under other names

Two terms are the same syntax if their nodes have the same shape, and so have their children, one by one;
the names of the nodes do not matter. What a tree shows of its program, the kinds in traversal order and
its text, depends on the syntax only.
-/

namespace Elementwise

/-- Replacing children by values that agree gives the same node. -/
theorem Node.map_eq_of_zip {α β γ : Type} {f : α → γ} {g : β → γ} {n : Node α} {m : Node β}
    (hshape : n.shape = m.shape) (h : ∀ c d, (c, d) ∈ n.children.zip m.children → f c = g d) : n.map f = m.map g := by
  obtain ⟨z, rfl, rfl, hz⟩ := Node.exists_zip_of_forall hshape h
  rw [Node.map_map, Node.map_map]
  exact Node.map_congr hz

/-- Replacing children keeps the label. -/
@[simp] theorem Node.label_map {α β : Type} (f : α → β) (n : Node α) : (n.map f).label = n.label := by
  have hcount (items : List α) (before after : String) :
      before ++ Nat.repr (items.map f).length ++ after = before ++ Nat.repr items.length ++ after := by
    rw [List.length_map]
  cases n with
  | block statements => exact (congrArg label (map_block f statements)).trans (hcount statements "Block (" ")")
  | call name args => exact (congrArg label (map_call f name args)).trans (hcount args _ ")")
  | pack items => exact (congrArg label (map_pack f items)).trans (hcount items "ArrayPack (" ")")
  | loop kind start condition step body => exact congrArg label (map_loop f kind start condition step body)
  | declare ty name start => exact congrArg label (map_declare f ty name start)
  | unpack array index column => exact congrArg label (map_unpack f array index column)
  | assign target source compound => cases compound <;> rfl
  | _ => rfl

namespace Term

/-- The same syntax, whatever the names of the nodes. -/
inductive Same : Term → Term → Prop
  | node {id id' content content'} (hshape : content.shape = content'.shape)
      (h : ∀ c c', (c, c') ∈ content.children.zip content'.children → Same c c') :
      Same (.node id content) (.node id' content')

/-- The lines below a node are those of its children, in order. -/
theorem textNode_eq (depth : Nat) (content : Node Term) :
    textNode depth content = (content.children.map (textAt depth)).foldr (· ++ ·) "" := by
  have hlist (terms : List Term) : textList depth terms = (terms.map (textAt depth)).foldr (· ++ ·) "" := by
    induction terms with
    | nil => rfl
    | cons term rest ih => rw [textList, ih, List.map_cons, List.foldr_cons]
  have hoption (term : Option Term) : textOption depth term = (term.toList.map (textAt depth)).foldr (· ++ ·) "" := by
    cases term <;> simp [textOption]
  have happend (l l' : List String) : (l ++ l').foldr (· ++ ·) "" = l.foldr (· ++ ·) "" ++ l'.foldr (· ++ ·) "" := by
    induction l with
    | nil => simp
    | cons first rest ih => rw [List.cons_append, List.foldr_cons, List.foldr_cons, ih, String.append_assoc]
  cases content <;> simp only [textNode, Node.children, hlist, hoption, List.map_append, List.map_cons, List.map_nil,
    happend, List.foldr_cons, List.foldr_nil, String.append_assoc, String.append_empty]

namespace Same

variable {s t : Term}

/-- The kinds of the nodes, in order. -/
theorem kinds_eq (h : s.Same t) : (s.walk fun _ => false).map Prod.snd = (t.walk fun _ => false).map Prod.snd := by
  induction h with
  | @node id id' content content' hshape _ ih =>
    have hmap := Node.map_eq_of_zip hshape ih
    have hchildren := congrArg Node.children hmap
    rw [Node.children_map, Node.children_map] at hchildren
    simp only [walk_node, Bool.false_eq_true, if_false, List.map_cons, List.map_flatMap,
      Node.kind_of_shape_eq hshape]
    rw [List.flatMap_def, List.flatMap_def, hchildren]

/-- The text, from any depth. -/
theorem textAt_eq (h : s.Same t) (depth : Nat) : s.textAt depth = t.textAt depth := by
  induction h generalizing depth with
  | @node id id' content content' hshape _ ih =>
    have hmap := Node.map_eq_of_zip hshape fun c d hcd => ih c d hcd (depth + 1)
    have hlabel := congrArg Node.label hmap
    have hchildren := congrArg Node.children hmap
    rw [Node.label_map, Node.label_map] at hlabel
    rw [Node.children_map, Node.children_map] at hchildren
    rw [textAt, textAt, textNode_eq, textNode_eq, hlabel, hchildren]

end Same

end Term

namespace Tree

variable {s t : Tree} {x y : NodeId}

/-- A node and its mirror are the same syntax. -/
theorem Mirrors.same (h : Mirrors s t x y) (hs : s.Linked) (ht : t.Linked) (hx : s.Grounded x) (hy : t.Grounded y) :
    (s.term x).Same (t.term y) := by
  induction h with
  | @node x y n m hn hm hshape _ ih =>
    rw [hs.term_eq hx hn, ht.term_eq hy hm]
    refine .node (by simp [hshape]) fun c d hcd => ?_
    rw [Node.children_map, Node.children_map, List.zip_map, List.mem_map] at hcd
    obtain ⟨⟨c', d'⟩, hmem, heq⟩ := hcd
    obtain ⟨rfl, rfl⟩ := Prod.mk.inj heq
    have hc := hs.owns x n hn c' (List.of_mem_zip hmem).1
    have hd := ht.owns y m hm d' (List.of_mem_zip hmem).2
    exact ih c' d' hmem (.of_parent? hc hx) (.of_parent? hd hy)

/-- The kinds of a program in traversal order are those in its term. -/
theorem Linked.linearize_eq (h : t.Linked) (hroot : t.Rooted) :
    t.linearize = (t.program.walk fun _ => false).map Prod.snd := by
  classical
  have hshown (x : NodeId) : t.Shown (fun _ => false) x := fun _ _ _ _ => rfl
  have hwalk := h.walk_eq_filter hroot.grounded hroot.live _ (hshown t.root)
  rw [List.filter_eq_self.mpr fun x _ => decide_eq_true (hshown x)] at hwalk
  have hkinds := congrArg (List.filterMap Prod.snd) hwalk
  rw [List.filterMap_map, List.filterMap_map] at hkinds
  rw [linearize, h.preorder_eq hroot]
  exact hkinds.symm.trans (congrFun List.filterMap_eq_map' _)

end Tree

end Elementwise
