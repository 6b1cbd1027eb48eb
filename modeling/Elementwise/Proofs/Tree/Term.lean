import Elementwise.Tree.Traverse
import Elementwise.Proofs.Tree.Shape

/-!
# Terms and what is below them

Induction over a term with one hypothesis for each child of a node, and the terms that stand
anywhere in a term.
-/

namespace Elementwise

/-- A child is smaller than its node. -/
theorem Node.sizeOf_lt_of_mem {content : Node Term} {c : Term} (h : c ∈ content.children) :
    sizeOf c < sizeOf content := by
  cases content with
  | block statements =>
    have := List.sizeOf_lt_of_mem (show c ∈ statements from h)
    simp only [block.sizeOf_spec]
    omega
  | call name args =>
    have := List.sizeOf_lt_of_mem (show c ∈ args from h)
    simp only [call.sizeOf_spec]
    omega
  | pack items =>
    have := List.sizeOf_lt_of_mem (show c ∈ items from h)
    simp only [pack.sizeOf_spec]
    omega
  | loop kind start condition step body =>
    simp only [children, List.mem_append, List.mem_singleton, Option.mem_toList] at h
    rcases h with ((rfl | rfl) | rfl) | rfl <;> simp +arith
  | declare ty name start =>
    simp only [children, List.mem_cons, Option.mem_toList] at h
    rcases h with rfl | rfl <;> simp +arith
  | unpack array index column =>
    simp only [children, List.mem_cons, Option.mem_toList] at h
    rcases h with rfl | rfl | rfl <;> simp +arith
  | conditional condition thenBranch elseBranch =>
    simp only [children, List.mem_cons, List.not_mem_nil, or_false] at h
    rcases h with rfl | rfl | rfl <;> simp +arith
  | binary _ left right | assign left right _ =>
    simp only [children, List.mem_cons, List.not_mem_nil, or_false] at h
    rcases h with rfl | rfl <;> simp +arith
  | unary _ operand | crement _ _ operand | cast _ operand =>
    simp only [children, List.mem_singleton] at h
    subst h
    simp +arith
  | jump | value | localName | field | external => simp at h

namespace Term

/-- Induction over a term: a node has what all its children have. -/
@[elab_as_elim]
theorem children_induction {P : Term → Prop} (missing : ∀ id, P (.missing id))
    (node : ∀ id content, (∀ c ∈ content.children, P c) → P (.node id content)) : ∀ t, P t
  | .missing id => missing id
  | .node id content => node id content fun c _hc => children_induction missing node c
termination_by t => sizeOf t
decreasing_by
  have hlt := Node.sizeOf_lt_of_mem _hc
  simp only [Term.node.sizeOf_spec]
  omega

/-- A term stands somewhere in another, or is that term. -/
inductive Within : Term → Term → Prop
  | self (t : Term) : Within t t
  | child {s c : Term} {id : NodeId} {content : Node Term} (hc : c ∈ content.children) (h : Within s c) :
      Within s (.node id content)

/-- Every node that stands somewhere in the term passes a test. -/
def Everywhere (P : Node Term → Prop) (t : Term) : Prop := ∀ id content, Within (.node id content) t → P content

namespace Everywhere

variable {P : Node Term → Prop} {id : NodeId} {content : Node Term}

theorem here (h : Everywhere P (.node id content)) : P content := h id content (.self _)

theorem below (h : Everywhere P (.node id content)) {c : Term} (hc : c ∈ content.children) : Everywhere P c :=
  fun id content hin => h id content (.child hc hin)

/-- What holds of a node and everywhere in its children holds everywhere in it. -/
theorem of_children (hnode : P content) (h : ∀ c ∈ content.children, Everywhere P c) :
    Everywhere P (.node id content) := by
  intro id' content' hin
  cases hin with
  | self => exact hnode
  | child hc hin => exact h _ hc _ _ hin

theorem iff_children : Everywhere P (.node id content) ↔ P content ∧ ∀ c ∈ content.children, Everywhere P c :=
  ⟨fun h => ⟨h.here, fun _ hc => h.below hc⟩, fun h => of_children h.1 h.2⟩

end Everywhere

/-- No name in the term is without a live node. -/
def Complete (t : Term) : Prop := ∀ id, ¬Within (.missing id) t

namespace Complete

variable {id : NodeId} {content : Node Term}

theorem not_missing : ¬Complete (.missing id) := fun h => h id (.self _)

theorem below (h : Complete (.node id content)) {c : Term} (hc : c ∈ content.children) : Complete c :=
  fun id hin => h id (.child hc hin)

/-- A node with complete children is complete. -/
theorem of_children (h : ∀ c ∈ content.children, Complete c) : Complete (.node id content) := by
  intro id' hin
  cases hin with
  | child hc hin => exact h _ hc _ hin

end Complete

end Term

/-- What is below a node are its children, in order. -/
theorem Visitor.walkNode_eq {σ : Type} (v : Visitor Term σ) (content : Node Term) (s : σ) :
    v.walkNode content s = content.children.foldl (fun s c => v.walk c s) s := by
  have hlist (terms : List Term) (s : σ) : v.walkList terms s = terms.foldl (fun s c => v.walk c s) s := by
    induction terms generalizing s with
    | nil => rfl
    | cons term rest ih => rw [walkList, ih, List.foldl_cons]
  have hoption (term : Option Term) (s : σ) : v.walkOption term s = term.toList.foldl (fun s c => v.walk c s) s := by
    cases term <;> rfl
  cases content <;> simp [walkNode, hlist, hoption]

end Elementwise
