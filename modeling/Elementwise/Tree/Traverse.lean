import Elementwise.Tree.Term

/-!
# Traversals

Two ways through a tree: by a stack of names over the arena, and with a visitor by recursion over its
term. Both visit a node before its children, and children in order. A visitor has a callback for each
kind of node, which tells whether the children are visited.
-/

namespace Elementwise

namespace Tree

/-- Visit the names on a stack and what is below them, at most the given number of names. -/
def preorderFrom (t : Tree) : Nat → List NodeId → List NodeId
  | 0, _ => []
  | _ + 1, [] => []
  | fuel + 1, id :: stack =>
    match t.get? id with
    | some node => id :: t.preorderFrom fuel (node.children ++ stack)
    | none => t.preorderFrom fuel stack

/-- The live nodes below the root, each before its children. Every node has one owner, so no more
names are visited than there are slots. -/
def preorder (t : Tree) : List NodeId := t.preorderFrom (t.slots.size + 1) [t.root]

/-- The kinds of the nodes below the root, in traversal order. -/
def linearize (t : Tree) : List NodeKind := t.preorder.filterMap fun id => (t.get? id).map Node.kind

/-- The nodes below the root that pass a test, in traversal order. -/
def collect (t : Tree) (test : NodeKind → Bool) : List NodeId :=
  t.preorder.filter fun id => ((t.get? id).map fun node => test node.kind).getD false

end Tree

/-- Whether what is below a node is visited. -/
inductive Walk where
  | descend
  | skipChildren
  deriving DecidableEq

/-- What a visitor does at a node. -/
abbrev Callback (α σ : Type) := NodeId → Node α → σ → σ × Walk

/-- One callback for each kind of node, on a state that is passed along. -/
structure Visitor (α σ : Type) where
  /-- What is done at nodes of the kinds that have no callback of their own. -/
  node : Callback α σ := fun _ _ s => (s, .descend)
  (block conditional loop jump declare binary unary crement assign cast call pack unpack value localName field
    external : Callback α σ := node)

namespace Visitor

variable {α σ : Type}

/-- The callback for a node. -/
def dispatch (v : Visitor α σ) (n : Node α) : Callback α σ :=
  match n with
  | .block _ => v.block
  | .conditional _ _ _ => v.conditional
  | .loop _ _ _ _ _ => v.loop
  | .jump _ => v.jump
  | .declare _ _ _ => v.declare
  | .binary _ _ _ => v.binary
  | .unary _ _ => v.unary
  | .crement _ _ _ => v.crement
  | .assign _ _ _ => v.assign
  | .cast _ _ => v.cast
  | .call _ _ => v.call
  | .pack _ => v.pack
  | .unpack _ _ _ => v.unpack
  | .value _ => v.value
  | .localName _ => v.localName
  | .field _ _ _ _ => v.field
  | .external _ _ => v.external

/-- What the callback for a node does at it. -/
def visit (v : Visitor α σ) (id : NodeId) (n : Node α) (s : σ) : σ × Walk := v.dispatch n id n s

mutual
/-- Visit the nodes of a term, each before its children. -/
def walk (v : Visitor Term σ) : Term → σ → σ
  | .missing _, s => s
  | .node id content, s =>
    match v.visit id content s with
    | (s, .descend) => v.walkNode content s
    | (s, .skipChildren) => s

/-- Visit the nodes below a node. -/
def walkNode (v : Visitor Term σ) : Node Term → σ → σ
  | .block statements, s => v.walkList statements s
  | .conditional condition thenBranch elseBranch, s =>
    v.walk elseBranch (v.walk thenBranch (v.walk condition s))
  | .loop _ start condition step body, s =>
    v.walk body (v.walkOption step (v.walkOption condition (v.walkOption start s)))
  | .declare _ name start, s => v.walkOption start (v.walk name s)
  | .binary _ left right, s => v.walk right (v.walk left s)
  | .unary _ operand, s => v.walk operand s
  | .crement _ _ target, s => v.walk target s
  | .assign target value _, s => v.walk value (v.walk target s)
  | .cast _ operand, s => v.walk operand s
  | .call _ args, s => v.walkList args s
  | .pack items, s => v.walkList items s
  | .unpack array index column, s => v.walkOption column (v.walk index (v.walk array s))
  | .jump _, s | .value _, s | .localName _, s | .field _ _ _ _, s | .external _ _, s => s

/-- Visit the nodes of a list of terms. -/
def walkList (v : Visitor Term σ) : List Term → σ → σ
  | [], s => s
  | term :: rest, s => v.walkList rest (v.walk term s)

/-- Visit the nodes of a term that may be absent. -/
def walkOption (v : Visitor Term σ) : Option Term → σ → σ
  | none, s => s
  | some term, s => v.walk term s
end

/-- Note a node under a kind, and visit what is below it unless `skip` holds of the kind. -/
def note (skip : NodeKind → Bool) (kind : NodeKind) : Callback α (List (NodeId × NodeKind)) :=
  fun id _ seen => (seen ++ [(id, kind)], if skip kind then .skipChildren else .descend)

/-- The visitor whose callbacks note the kind that they are for. -/
def recorder (skip : NodeKind → Bool) : Visitor α (List (NodeId × NodeKind)) where
  block := note skip .block
  conditional := note skip .conditional
  loop := note skip .loop
  jump := note skip .jump
  declare := note skip .declare
  binary := note skip .binary
  unary := note skip .unary
  crement := note skip .crement
  assign := note skip .assign
  cast := note skip .cast
  call := note skip .call
  pack := note skip .pack
  unpack := note skip .unpack
  value := note skip .value
  localName := note skip .localName
  field := note skip .field
  external := note skip .external

end Visitor

/-- The nodes of a term, each before its children, as callbacks note them; what is below a kind that
`skip` holds of is not visited. -/
def Term.walk (skip : NodeKind → Bool) (t : Term) : List (NodeId × NodeKind) :=
  (Visitor.recorder skip).walk t []

end Elementwise
