import Elementwise.Diagnostic.Sink
import Elementwise.Diagnostic.SourceMap
import Elementwise.Tree.Splice

/-!
# External lookups

Calls that look up a value of the host by a literal name become nodes of their own before anything
else is done with a program.
-/

namespace Elementwise

/-- A call that looks up a value of the host: its node, the type of the value, and the name if the
only argument is a string literal. -/
structure ExternalCall where
  id : NodeId
  ty : Ty
  name : Option String

namespace Tree

/-- The type of what a function looks up, if it is one that looks up values of the host. -/
def externalTy? (function : String) : Option Ty :=
  if function = "external" then some .float
  else if function = "externalv" then some .vec3f
  else none

/-- The text of a string literal. -/
def literalText? (t : Tree) (id : NodeId) : Option String :=
  match t.get? id with
  | some (.value (.string s)) => some s
  | _ => none

/-- The node as a call that looks up a value of the host. -/
def externalCall? (t : Tree) (id : NodeId) : Option ExternalCall :=
  match t.get? id with
  | some (.call function args) => (externalTy? function).map fun ty =>
    ⟨id, ty, match args with
      | [arg] => t.literalText? arg
      | _ => none⟩
  | _ => none

/-- The calls of a program that look up values of the host, in traversal order. -/
def externalCalls (t : Tree) : List ExternalCall := t.preorder.filterMap t.externalCall?

end Tree

/-- A program while its external lookups are replaced. -/
structure Lowering where
  tree : Tree
  map : SourceMap
  sink : Sink
  count : Nat := 0

namespace Lowering

/-- Report an error at a node. -/
def report (l : Lowering) (call : NodeId) (message : String) (help : Option String) : Lowering :=
  { l with sink := l.sink.push { Diagnostic.error .semantic message (l.map.lookup l.tree call) with help } }

/-- Replace one call, or report why it cannot be. -/
def step (l : Lowering) (call : ExternalCall) : Lowering :=
  match call.name with
  | none =>
    l.report call.id "external lookups take one string literal argument"
      (some "write external(\"name\") or externalv(\"name\")")
  | some name =>
    let (id, tree) := l.tree.alloc (.external name call.ty)
    match tree.replace call.id id with
    | .ok tree => { l with tree, map := l.map.transfer call.id id, count := l.count + 1 }
    | .error e => { l with tree }.report call.id e.message none

/-- Replace every external lookup of a program. -/
def run (tree : Tree) (map : SourceMap) (sink : Sink) : Lowering :=
  tree.externalCalls.foldl step { tree, map, sink }

end Lowering

end Elementwise
