import Elementwise.Diagnostic.Basic
import Elementwise.Tree.Traverse

/-!
# Source maps

Which span of the source each node of a tree comes from. A copy of the tree has other names for its
nodes; its spans are found by the position in traversal order.
-/

namespace Elementwise

/-- Spans of the nodes of a tree, and the traversal order of the tree when the map was made. -/
structure SourceMap where
  tree : Nat
  order : List NodeId
  spans : List (NodeId × Span) := []

namespace SourceMap

/-- The map of a tree without any span. -/
def empty (t : Tree) : SourceMap := { tree := t.id, order := t.preorder }

/-- The span recorded for a node. -/
def get? (m : SourceMap) (node : NodeId) : Option Span := m.spans.lookup node

/-- Record the span of a node, in place of an earlier one. -/
def insert (m : SourceMap) (node : NodeId) (span : Span) : SourceMap :=
  { m with spans := (node, span) :: m.spans.filter fun entry => entry.1 != node }

/-- The number of nodes with a span. -/
def size (m : SourceMap) : Nat := m.spans.length

/-- The span of a node of a tree: by its name in the map's own tree, else by its position. -/
def lookup (m : SourceMap) (t : Tree) (node : NodeId) : Option Span :=
  if t.id = m.tree then m.get? node else do
    let position ← t.preorder.findIdx? fun n => n == node
    let origin ← m.order[position]?
    m.get? origin

/-- The map of a copy of the tree: every span goes to the node at the same position. -/
def rebase (m : SourceMap) (copy : Tree) : SourceMap :=
  let order := copy.preorder
  { tree := copy.id
    order
    spans := (order.zip m.order).filterMap fun (new, old) => (m.get? old).map fun span => (new, span) }

/-- Record the span of one node for another, if there is one. -/
def transfer (m : SourceMap) (source target : NodeId) : SourceMap :=
  match m.get? source with
  | some span => m.insert target span
  | none => m

end SourceMap

end Elementwise
