import Elementwise.Diagnostic.Sink
import Elementwise.Diagnostic.SourceMap
import Elementwise.Registry.Basic
import Elementwise.Tree.Traverse

/-!
# The registry of a program

A scan over a program records its uses of fields, in traversal order. A use is written if it carries
the hint, or if its node was marked: an assignment or a step marks the field that it changes, directly
or through the array of a component, before what is below it is visited.
-/

namespace Elementwise

/-- One use of a field in a program. -/
structure FieldUse where
  id : NodeId
  name : String
  ty : Ty
  inferred : Bool
  writable : Bool
  deriving DecidableEq, Repr

/-- The error of a field that a volume program cannot have. -/
def FieldUse.notAGrid (u : FieldUse) (span : Option Span) : Diagnostic :=
  .error .semantic ("volume '@" ++ u.name ++ "' cannot hold " ++ u.ty.text) span

/-- The error of a field that is used with another type than before. -/
def FieldUse.conflict (u : FieldUse) (target : Target) (first : Ty) (span : Option Span) : Diagnostic :=
  let message := target.fieldName ++ " '@" ++ u.name ++ "' is used as " ++ u.ty.text ++
    " but was first used as " ++ first.text
  let d := Diagnostic.error .typeConflict message span
  let d := if u.inferred then d.withNote ("'@" ++ u.name ++ "' without a type prefix is float") else d
  d.withHelp ("use one type for every access to '@" ++ u.name ++ "'")

namespace Registry

/-- Record one use, and report it if it is at odds with the target or with an earlier use. -/
def addUse (spanOf : NodeId → Option Span) (state : Registry × Sink) (u : FieldUse) : Registry × Sink :=
  let (r, sink) := state
  if r.target = .volumes && !u.ty.isNumeric then (r, sink.push (u.notAGrid (spanOf u.id)))
  else
    match r.register u.name u.ty u.writable with
    | (.ok _, r) => (r, sink)
    | (.error first, r) => (r, sink.push (u.conflict r.target first (spanOf u.id)))

end Registry

/-- The field at the root of what is changed: the term itself, or the array of a component. -/
def Term.changedField? : Term → Option NodeId
  | .node _ (.unpack array _ _) => array.changedField?
  | .node id (.field _ _ _ _) => some id
  | _ => none

/-- What a scan over a program has found. -/
structure Scan where
  registry : Registry
  /-- The field nodes that are targets of a change. -/
  written : List NodeId := []
  sink : Sink

namespace Scan

/-- Mark the field at the root of what is changed. -/
def mark (s : Scan) (target : Term) : Scan := { s with written := target.changedField?.toList ++ s.written }

/-- Record a use of a field, as written if its node is marked. -/
def record (spanOf : NodeId → Option Span) (s : Scan) (u : FieldUse) : Scan :=
  let (registry, sink) := Registry.addUse spanOf (s.registry, s.sink)
    { u with writable := u.writable || s.written.contains u.id }
  { s with registry, sink }

/-- The visitor that marks what is changed when it comes to the change, and records fields. -/
def visitor (spanOf : NodeId → Option Span) : Visitor Term Scan where
  assign _ content s :=
    match content with
    | .assign target _ _ => (s.mark target, .descend)
    | _ => (s, .descend)
  crement _ content s :=
    match content with
    | .crement _ _ target => (s.mark target, .descend)
    | _ => (s, .descend)
  field id content s :=
    match content with
    | .field name ty inferred writable => (s.record spanOf ⟨id, name, ty, inferred, writable⟩, .descend)
    | _ => (s, .descend)

end Scan

/-- The registry of a program, and the diagnostics it gives rise to. -/
def Registry.build (t : Tree) (target : Target) (map : SourceMap) (sink : Sink) : Registry × Sink :=
  let scan := (Scan.visitor (map.lookup t)).walk t.program { registry := { target }, sink }
  (scan.registry, scan.sink)

end Elementwise
