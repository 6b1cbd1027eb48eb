import Elementwise.Proofs.Tree.Shape
import Elementwise.Tree.Splice
import Elementwise.Tree.Traverse

/-!
# Operations in place

The operations on a tree as programs that change one tree step by step. A refusal may come after some of
the changes were made, and the tree is then left as it was at that moment. Recursion is given a depth, and a
program that comes to the end of it has no result: one that ends settles on its result as the depth grows,
and one that never ends has none at any depth.
-/

namespace Elementwise

variable {α ε : Type}

/-- The next child from a list, in the place of another; the other stays where none is left. -/
def Node.takeNext (old : α) : StateM (List α) α
  | [] => (old, [])
  | child :: rest => (child, rest)

/-- The same node with other children, in order. -/
def Node.withChildren (n : Node α) (children : List α) : Node α := (n.mapM takeNext children).1

/-- Given more and more depth, a computation settles on a result. -/
def Settles (f : Nat → Option α) (a : α) : Prop := ∃ enough, ∀ depth, enough ≤ depth → f depth = some a

theorem Settles.of_lt {f : Nat → Option α} {a : α} (bound : Nat) (h : ∀ depth, bound < depth → f depth = some a) :
    Settles f a := ⟨bound + 1, fun depth hdepth => h depth hdepth⟩

/-- A program on a tree. It may have no result; what it leaves behind comes with its result or its refusal. -/
abbrev InPlace (ε α : Type) := ExceptT ε (StateT Tree Option) α

namespace InPlace

/-- Run a program on a tree. -/
def on (x : InPlace ε α) (t : Tree) : Option (Except ε α × Tree) := x.run.run t

/-- A program that has come to the end of its depth. -/
def exhausted : InPlace ε α := fun _ => none

/-- A program with other names for its refusals. -/
def refusing {ε' : Type} (x : InPlace ε α) (f : ε → ε') : InPlace ε' α := ExceptT.adapt f x

/-- The end of a program that makes all its checks first: a refusal has changed nothing. -/
def outcome (t : Tree) : Except ε (α × Tree) → Except ε α × Tree
  | .ok (a, t') => (.ok a, t')
  | .error e => (.error e, t)

/-- Make sure that a child is detached and was not seen before. -/
def claim (id : NodeId) : StateT (List NodeId) (InPlace Tree.Misuse) Unit := do
  if (← getThe Tree).isDetached id && !(← getThe (List NodeId)).contains id then modifyThe (List NodeId) (id :: ·)
  else throw (.childUnavailable id)

/-- Allocate a node that owns its children. -/
def add (node : Node NodeId) : InPlace Tree.Misuse NodeId := do
  let id := (← get).slots.size
  (node.children.forM claim).run' []
  node.children.forM fun child => modify (·.setParent child (some id))
  modify fun t => { t with slots := t.slots.push (some ⟨node, none⟩) }
  return id

/-- Put a detached statement at the end of a block. -/
def pushStatement (block statement : NodeId) : InPlace Tree.Misuse Unit := do
  if !(← get).isDetached statement then throw (.statementAttached statement)
  match (← get).get? block with
  | some (.block statements) => modify (·.setNode block (.block (statements ++ [statement])))
  | _ => throw (.notABlock block)
  modify (·.setParent statement (some block))

/-- Free a node and everything below it. -/
def free : Nat → NodeId → InPlace ε Unit
  | 0, _ => exhausted
  | depth + 1, id => do
    match (← get).get? id with
    | none => return
    | some node =>
      node.children.forM (free depth)
      modify (·.clear id)

/-- Put a detached subtree into the place of a node, which is freed with all below it. -/
def replace (depth : Nat) (node replacement : NodeId) : InPlace SpliceError Unit := do
  if !(← get).contains node then throw (.stale node)
  if !(← get).isDetached replacement then throw (.replacementAttached replacement)
  match (← get).parent? node with
  | none => throw (.noParent node)
  | some parent =>
    match (← get).get? parent with
    | none => throw (.stale parent)
    | some owner =>
      if !owner.children.contains node then throw (.notAChild node parent)
      modify (·.setNode parent (owner.withChildren (owner.children.replace node replacement)))
      modify (·.setParent replacement (some parent))
      modify (·.setParent node none)
      free depth node

/-- Take a statement out of its block and free it with all below it. -/
def removeStatement (depth : Nat) (node : NodeId) : InPlace SpliceError Unit := do
  if !(← get).contains node then throw (.stale node)
  match (← get).parent? node with
  | none => throw (.noParent node)
  | some parent =>
    match (← get).get? parent with
    | some (.block statements) =>
      if !statements.contains node then throw (.notAChild node parent)
      modify (·.setNode parent (.block (statements.erase node)))
    | _ => throw (.notAChild node parent)
    modify (·.setParent node none)
    free depth node

/-- Copy a node of another tree and everything below it, detached. -/
def importNode (source : Tree) : Nat → NodeId → InPlace Tree.Misuse NodeId
  | 0, _ => exhausted
  | depth + 1, id =>
    match source.get? id with
    | none => add (.block [])
    | some node => do
      let children ← node.children.mapM (importNode source depth)
      add (node.withChildren children)

/-- Copy everything below the root of another tree, and take it as the program. -/
def copy (source : Tree) (depth : Nat) : InPlace Tree.Misuse Unit := do
  let root ← importNode source depth source.root
  modify ({ · with root })

/-- Visit the names on a stack and what is below them. -/
def visit (t : Tree) : Nat → List NodeId → List NodeId → Option (List NodeId)
  | 0, _, _ => none
  | _ + 1, visited, [] => some visited
  | depth + 1, visited, id :: stack =>
    match t.get? id with
    | some node => visit t depth (visited ++ [id]) (node.children ++ stack)
    | none => visit t depth visited stack

/-- Walk with a visitor over a node and what is below it. -/
def walkWith {σ : Type} (t : Tree) (v : Visitor NodeId σ) : Nat → NodeId → σ → Option σ
  | 0, _, _ => none
  | depth + 1, id, s =>
    match t.get? id with
    | none => some s
    | some node =>
      match v.visit id node s with
      | (s, .descend) => node.children.foldlM (fun s child => walkWith t v depth child s) s
      | (s, .skipChildren) => some s

/-- Walk over a node and what is below it; what is below a kind that `skip` holds of is not visited. -/
def walk (t : Tree) (skip : NodeKind → Bool) (depth : Nat) (id : NodeId) : Option (List (NodeId × NodeKind)) :=
  walkWith t (.recorder skip) depth id []

section

variable {β : Type} {t : Tree} {e : ε} {a : α}

@[simp] theorem on_throw : (throw e : InPlace ε α).on t = some (.error e, t) := rfl

@[simp] theorem on_get_bind (f : Tree → InPlace ε α) : (get >>= f).on t = (f t).on t := rfl

@[simp] theorem on_modify_bind (f : Tree → Tree) (k : PUnit → InPlace ε α) :
    (modify f >>= k).on t = (k ()).on (f t) := rfl

/-- What follows a program that has a result goes on with the tree it leaves. -/
theorem on_bind_ok {x : InPlace ε α} {t' : Tree} (h : x.on t = some (.ok a, t')) (f : α → InPlace ε β) :
    (x >>= f).on t = (f a).on t' := by
  have hbind : (x >>= f).on t = (x.on t).bind fun r => (ExceptT.bindCont f r.1).run r.2 := rfl
  rw [hbind, h]
  rfl

/-- Nothing follows a refusal. -/
theorem on_bind_error {x : InPlace ε α} {t' : Tree} (h : x.on t = some (.error e, t')) (f : α → InPlace ε β) :
    (x >>= f).on t = some (.error e, t') := by
  have hbind : (x >>= f).on t = (x.on t).bind fun r => (ExceptT.bindCont f r.1).run r.2 := rfl
  rw [hbind, h]
  rfl

/-- A program that makes its checks first, with other names for its refusals. -/
theorem on_refusing {ε' : Type} {x : InPlace ε α} {r : Except ε (α × Tree)} (h : x.on t = some (outcome t r))
    (f : ε → ε') : (x.refusing f).on t = some (outcome t (r.mapError f)) := by
  have hadapt : (x.refusing f).on t = (x.on t).bind fun r => some (r.1.mapError f, r.2) := rfl
  rw [hadapt, h]
  cases r <;> rfl

/-- A program that makes its checks first, without its result. -/
theorem on_discard {x : InPlace ε α} {r : Except ε (α × Tree)} (h : x.on t = some (outcome t r)) :
    (x *> pure () : InPlace ε Unit).on t = some (outcome t (r.map fun p => ((), p.2))) := by
  cases r with
  | ok p => exact on_bind_ok h _
  | error e => exact on_bind_error h _

end

end InPlace

end Elementwise
