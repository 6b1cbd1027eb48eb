import Elementwise.Function.Signature

/-!
# Diagnostics

What a compilation reports about a program: an error or a warning of some kind, where it is, and
notes and help for the reader.
-/

namespace Elementwise

/-- A range of positions in a source file. -/
structure Span where
  file : Nat
  start : Nat
  stop : Nat
  deriving DecidableEq, Repr

/-- Whether a diagnostic makes a compilation fail. -/
inductive Severity where
  | error
  | warning
  deriving DecidableEq, Repr

/-- What a diagnostic is about. -/
inductive ErrorKind where
  | unreadable
  | typeConflict
  | declaration
  | resolution (tier : MatchTier)
  | generation
  | semantic
  | backend
  | binding
  deriving DecidableEq, Repr

/-- The name of a kind of error. -/
def ErrorKind.name : ErrorKind → String
  | unreadable => "syntax error"
  | typeConflict => "type conflict"
  | declaration => "declaration error"
  | resolution _ => "function resolution error"
  | generation => "function generation error"
  | semantic => "semantic error"
  | backend => "backend error"
  | binding => "binding error"

/-- One message about a program. -/
structure Diagnostic where
  severity : Severity
  kind : ErrorKind
  message : String
  span : Option Span
  notes : List String := []
  help : Option String := none
  deriving DecidableEq, Repr

namespace Diagnostic

/-- An error. -/
def error (kind : ErrorKind) (message : String) (span : Option Span) : Diagnostic :=
  ⟨.error, kind, message, span, [], none⟩

/-- A warning. -/
def warning (kind : ErrorKind) (message : String) (span : Option Span) : Diagnostic :=
  ⟨.warning, kind, message, span, [], none⟩

/-- The diagnostic with one more note. -/
def withNote (d : Diagnostic) (note : String) : Diagnostic := { d with notes := d.notes ++ [note] }

/-- The diagnostic with a help text. -/
def withHelp (d : Diagnostic) (help : String) : Diagnostic := { d with help := some help }

/-- Whether the diagnostic is an error. -/
def isError (d : Diagnostic) : Bool := d.severity == .error

/-- The one-line text of a diagnostic. -/
def text (d : Diagnostic) : String :=
  let level := match d.severity with
    | .error => "error"
    | .warning => "warning"
  level ++ "[" ++ d.kind.name ++ "]: " ++ d.message

end Diagnostic

end Elementwise
