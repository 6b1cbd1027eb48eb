import Elementwise.Tree.Basic

/-!
# Splicing in place

Putting a detached subtree into the place of another, and removing a statement from its block.
What is taken out is freed.
-/

namespace Elementwise

/-- Why a splice was refused. -/
inductive SpliceError where
  | noParent (node : NodeId)
  | notAChild (node parent : NodeId)
  | stale (node : NodeId)
  | replacementAttached (node : NodeId)
  deriving DecidableEq, Repr

/-- The text of a refused splice. -/
def SpliceError.message : SpliceError → String
  | noParent node => "node " ++ node.text ++ " has no parent (the root block cannot be replaced)"
  | notAChild node parent => "node " ++ node.text ++ " is not among the children of " ++ parent.text
  | stale node => "node " ++ node.text ++ " is not live in this tree"
  | replacementAttached node =>
    "replacement " ++ node.text ++ " is not a detached subtree of this tree"

namespace Tree

/-- Put a detached subtree into the place of a node, which is freed with all below it. -/
def replace (t : Tree) (node replacement : NodeId) : Except SpliceError Tree :=
  if !t.contains node then .error (.stale node)
  else if !t.isDetached replacement then .error (.replacementAttached replacement)
  else
    match t.parent? node with
    | none => .error (.noParent node)
    | some parent =>
      match t.get? parent with
      | none => .error (.stale parent)
      | some owner =>
        if owner.children.contains node then
          let t := t.setNode parent (owner.map fun child => if child = node then replacement else child)
          let t := t.setParent replacement (some parent)
          .ok ((t.setParent node none).free node)
        else .error (.notAChild node parent)

/-- Take a statement out of its block and free it with all below it. -/
def removeStatement (t : Tree) (node : NodeId) : Except SpliceError Tree :=
  if !t.contains node then .error (.stale node)
  else
    match t.parent? node with
    | none => .error (.noParent node)
    | some parent =>
      match t.get? parent with
      | some (.block statements) =>
        if statements.contains node then
          let t := t.setNode parent (.block (statements.erase node))
          .ok ((t.setParent node none).free node)
        else .error (.notAChild node parent)
      | _ => .error (.notAChild node parent)

end Tree

end Elementwise
