import Elementwise.Proofs.Tree.Term
import Elementwise.Proofs.Value.Typing
import Mathlib.Tactic.MkIffOfInductiveProp

/-!
# Conditions on programs

What a program may be asked to keep to, said of every node of its term: the types it names, the
operators of its compound assignments, and what stands in a branch.
-/

namespace Elementwise

namespace Node

variable {α β : Type}

/-- The types that a node names. -/
def types : Node α → List Ty
  | .declare ty _ _ | .cast ty _ | .field _ ty _ _ | .external _ ty => [ty]
  | _ => []

/-- The operator of a compound assignment. -/
def compound? : Node α → Option BinaryOp
  | .assign _ _ op => op
  | _ => none

/-- The branches of a conditional. -/
def branches : Node α → List α
  | .conditional _ thenBranch elseBranch => [thenBranch, elseBranch]
  | _ => []

@[simp] theorem types_map (f : α → β) (n : Node α) : (n.map f).types = n.types := by cases n <;> rfl

@[simp] theorem compound?_map (f : α → β) (n : Node α) : (n.map f).compound? = n.compound? := by cases n <;> rfl

@[simp] theorem branches_map (f : α → β) (n : Node α) : (n.map f).branches = n.branches.map f := by cases n <;> rfl

theorem branches_subset (n : Node α) : n.branches ⊆ n.children := by
  cases n <;> simp [branches, children]

/-- A node names only types that have names, and no compound assignment is logical. -/
@[mk_iff] structure Typable (n : Node α) : Prop where
  nameable : ∀ ty ∈ n.types, ty.Nameable
  compound : ∀ op, n.compound? = some op → op.opClass ≠ .logical

end Node

/-- The kind of the node at the top of a term. -/
def Term.kind? : Term → Option NodeKind
  | .missing _ => none
  | .node _ content => some content.kind

/-- No branch of a conditional is itself a declaration. -/
def Node.Scoped (n : Node Term) : Prop := ∀ c ∈ n.branches, c.kind? ≠ some .declare

end Elementwise
