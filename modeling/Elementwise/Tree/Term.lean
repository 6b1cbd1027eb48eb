import Elementwise.Tree.Basic

/-!
# Terms

A tree read as an inductive term: every node with its name and with the terms of its children. What
only depends on the program, and not on how its arena is laid out, is defined on terms.
-/

namespace Elementwise

/-- A node with its name and the terms below it; `missing` is a name without a live node. -/
inductive Term where
  | missing (id : NodeId)
  | node (id : NodeId) (content : Node Term)

/-- The name of the node at the top of a term. -/
def Term.id : Term → NodeId
  | missing id => id
  | node id _ => id

namespace Tree

/-- The term of a node, to the given depth. -/
def termWithin (t : Tree) : Nat → NodeId → Term
  | 0, id => .missing id
  | depth + 1, id =>
    match t.get? id with
    | none => .missing id
    | some node => .node id (node.map (t.termWithin depth))

/-- The term of a node. No path in a tree is longer than its arena. -/
def term (t : Tree) (id : NodeId) : Term := t.termWithin (t.slots.size + 1) id

/-- The term of the whole program. -/
def program (t : Tree) : Term := t.term t.root

end Tree

end Elementwise
