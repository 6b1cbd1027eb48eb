import Elementwise.Tree.Node

/-!
# Trees

A program as an arena of nodes. A node names its children, and every slot names its parent, so a
node has one owner and can be replaced in place. A freed slot stays empty: names are never used
again. Operations that would share a node between two owners are refused.
-/

namespace Elementwise

/-- The name of a node in its tree: the position of its slot. -/
abbrev NodeId := Nat

/-- The text of a node's name. -/
def NodeId.text (id : NodeId) : String := "NodeId(" ++ Nat.repr id ++ ")"

/-- A live node and the node that owns it. -/
structure Slot where
  node : Node NodeId
  parent : Option NodeId
  deriving DecidableEq

/-- A program: its root block and every node below it. Two trees are told apart by `id`. -/
structure Tree where
  id : Nat
  slots : Array (Option Slot)
  root : NodeId

namespace Tree

/-- Why an operation on a tree was refused. -/
inductive Misuse where
  | childUnavailable (id : NodeId)
  | statementAttached (id : NodeId)
  | notABlock (id : NodeId)
  | notLive (id : NodeId)
  deriving DecidableEq, Repr

/-- The text of a refusal. -/
def Misuse.message : Misuse → String
  | childUnavailable id => "node " ++ id.text ++ " is already owned or does not exist"
  | statementAttached id => "statement " ++ id.text ++ " is not detached"
  | notABlock id => id.text ++ " is not a block"
  | notLive id => "node " ++ id.text ++ " is not live in this tree"

/-- The slot of a live node. -/
def slot? (t : Tree) (id : NodeId) : Option Slot := t.slots[id]?.join

/-- The node of a name, unless it was freed. -/
def get? (t : Tree) (id : NodeId) : Option (Node NodeId) := (t.slot? id).map Slot.node

/-- Whether a name belongs to a live node. -/
def contains (t : Tree) (id : NodeId) : Bool := (t.slot? id).isSome

/-- The owner of a node. -/
def parent? (t : Tree) (id : NodeId) : Option NodeId := (t.slot? id).bind Slot.parent

/-- The number of live nodes. -/
def size (t : Tree) : Nat := t.slots.countP Option.isSome

/-- The statements of the root block. -/
def statements (t : Tree) : List NodeId :=
  match t.get? t.root with
  | some (.block statements) => statements
  | _ => []

/-- Whether a node is live, not the root, and has no owner. -/
def isDetached (t : Tree) (id : NodeId) : Bool :=
  id != t.root && t.contains id && (t.parent? id).isNone

/-- The node of a name, which must be live. -/
def node (t : Tree) (id : NodeId) : Except Misuse (Node NodeId) :=
  match t.get? id with
  | some node => .ok node
  | none => .error (.notLive id)

/-- Change the slot of a live node. -/
def modify (t : Tree) (id : NodeId) (f : Slot → Slot) : Tree :=
  { t with slots := t.slots.modify id (Option.map f) }

/-- Give a live node an owner, or none. -/
def setParent (t : Tree) (id : NodeId) (parent : Option NodeId) : Tree :=
  t.modify id fun slot => { slot with parent }

/-- Change the node of a live name. -/
def setNode (t : Tree) (id : NodeId) (node : Node NodeId) : Tree :=
  t.modify id fun slot => { slot with node }

/-- Allocate a node that owns its children. -/
def alloc (t : Tree) (node : Node NodeId) : NodeId × Tree :=
  let id := t.slots.size
  let t := node.children.foldl (fun t child => t.setParent child (some id)) t
  (id, { t with slots := t.slots.push (some ⟨node, none⟩) })

/-- The first of the children that is not detached or was listed before. -/
def unavailable? (t : Tree) (seen : List NodeId) : List NodeId → Option NodeId
  | [] => none
  | child :: rest =>
    if t.isDetached child && !seen.contains child then t.unavailable? (child :: seen) rest
    else some child

/-- Allocate a node that owns its children, which must be detached and different. -/
def add (t : Tree) (node : Node NodeId) : Except Misuse (NodeId × Tree) :=
  match t.unavailable? [] node.children with
  | some child => .error (.childUnavailable child)
  | none => .ok (t.alloc node)

/-- A tree without nodes, whose root is yet to be allocated. -/
def unrooted (id : Nat) : Tree := ⟨id, #[], 4294967295⟩

/-- The empty program. -/
def empty (id : Nat) : Tree :=
  let (root, t) := (unrooted id).alloc (.block [])
  { t with root }

/-- Put a detached statement at the end of a block. -/
def pushStatement (t : Tree) (block statement : NodeId) : Except Misuse Tree :=
  if !t.isDetached statement then .error (.statementAttached statement) else
  match t.get? block with
  | some (.block statements) =>
    .ok ((t.setNode block (.block (statements ++ [statement]))).setParent statement (some block))
  | _ => .error (.notABlock block)

/-- Put a detached statement at the end of the root block. -/
def append (t : Tree) (statement : NodeId) : Except Misuse Tree := t.pushStatement t.root statement

/-- Empty one slot. -/
def clear (t : Tree) (id : NodeId) : Tree := { t with slots := t.slots.setIfInBounds id none }

/-- Free a node and what is below it, to the given depth. -/
def freeWithin : Nat → NodeId → Tree → Tree
  | 0, _, t => t
  | depth + 1, id, t =>
    match t.get? id with
    | none => t
    | some node => (node.children.foldl (fun t child => freeWithin depth child t) t).clear id

/-- Free a node and everything below it. No path in a tree is longer than its arena. -/
def free (t : Tree) (id : NodeId) : Tree := freeWithin (t.slots.size + 1) id t

/-- Copy a node and what is below it, to the given depth, as detached nodes. A name that is not
live becomes an empty block. -/
def importWithin (source : Tree) : Nat → NodeId → StateM Tree NodeId
  | 0, _ => fun t => t.alloc (.block [])
  | depth + 1, id =>
    match source.get? id with
    | none => fun t => t.alloc (.block [])
    | some node => do
      let copied ← node.mapM (importWithin source depth)
      fun t => t.alloc copied

/-- Copy a node of another tree and everything below it into this one, detached. -/
def importNode (t source : Tree) (id : NodeId) : NodeId × Tree :=
  importWithin source (source.slots.size + 1) id t

/-- A copy of everything below the root, as a tree of its own. -/
def copy (t : Tree) (id : Nat) : Tree :=
  let (root, copied) := (unrooted id).importNode t t.root
  { copied with root }

end Tree

end Elementwise
