import Elementwise.Diagnostic.Basic

/-!
# Collecting diagnostics

A sink keeps the diagnostics of one compilation. It counts every error and records at most a given
number of them; warnings are always recorded, and may be promoted to errors.
-/

namespace Elementwise

/-- The diagnostics recorded so far, in order, and the number of errors seen. -/
structure Sink where
  maxErrors : Option Nat := none
  promote : Bool := false
  recorded : List Diagnostic := []
  errors : Nat := 0

namespace Sink

/-- The diagnostic as the sink sees it: a promoted warning is an error that says so. -/
def asSeen (s : Sink) (d : Diagnostic) : Diagnostic :=
  if d.severity = .warning ∧ s.promote then
    { d with severity := .error }.withNote "warning treated as error"
  else d

/-- Whether one more error still fits. -/
def hasRoom (s : Sink) : Bool :=
  match s.maxErrors with
  | some most => s.errors < most
  | none => true

/-- Record a diagnostic, or only count it if it is an error beyond the limit. -/
def push (s : Sink) (d : Diagnostic) : Sink :=
  let d := s.asSeen d
  if d.isError then
    { s with errors := s.errors + 1, recorded := if s.hasRoom then s.recorded ++ [d] else s.recorded }
  else { s with recorded := s.recorded ++ [d] }

/-- Record diagnostics one after another. -/
def extend (s : Sink) (ds : List Diagnostic) : Sink := ds.foldl push s

/-- Whether an error was seen. -/
def hasFatal (s : Sink) : Bool := 0 < s.errors

/-- The number of errors that were counted and not recorded. -/
def suppressed (s : Sink) : Nat :=
  match s.maxErrors with
  | some most => s.errors - most
  | none => 0

/-- Add a note to the last error of a list. -/
def noteLastError (note : String) (ds : List Diagnostic) : List Diagnostic :=
  match ds.reverse.findIdx? Diagnostic.isError with
  | some i => ds.modify (ds.length - 1 - i) fun d => d.withNote note
  | none => ds

/-- The recorded diagnostics; the last recorded error tells how many more there were. -/
def diagnostics (s : Sink) : List Diagnostic :=
  if 0 < s.suppressed then
    noteLastError (Nat.repr s.suppressed ++ " further error(s) not shown") s.recorded
  else s.recorded

end Sink

end Elementwise
