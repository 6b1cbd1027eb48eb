import Elementwise.Diagnostic.Basic
import Elementwise.Text.Blank

/-!
# Reports for the reader

A diagnostic laid out under the source line it points at. Without a span only the headline is
written. With one, the line stands in a frame without its trailing blanks, the range is underlined,
and the message hangs from the middle of the underline; help and the last note follow.
-/

namespace Elementwise

namespace Report

/-- A run of one character. -/
def run (n : Nat) (c : Char) : String := String.ofList (List.replicate n c)

/-- The place of a position: the number of the line from one, the column from zero, and the line.
A position beyond the end belongs to the last line. -/
def locate (position : Nat) : Nat → List (List Char) → Nat × Nat × List Char
  | number, [] => (number, position, [])
  | number, [line] => (number, position, line)
  | number, line :: rest =>
    if position < line.length then (number, position, line)
    else locate (position - line.length) (number + 1) rest

/-- The underline of a range: its middle is marked. -/
def underline (width : Nat) : String :=
  run (width / 2) '─' ++ "┬" ++ run (width - width / 2 - 1) '─'

/-- The lines of the frame around the source line. -/
def frame (file source message : String) (span : Span) (remarks : List String) : List String :=
  let (number, column, line) := locate span.start 1 (Text.lines source.toList)
  let width := span.stop - span.start
  let margin := (Nat.repr number).length + 2
  let bar := run margin ' ' ++ "│"
  let place := file ++ ":" ++ Nat.repr number ++ ":" ++ Nat.repr (column + 1)
  [run margin ' ' ++ "╭─[" ++ place ++ "]",
   bar,
   " " ++ Nat.repr number ++ " │ " ++ String.ofList (Text.trimEnd line),
   bar ++ " " ++ run column ' ' ++ underline width ++ "  ",
   bar ++ " " ++ run (column + width / 2) ' ' ++ "╰" ++ run (width - width / 2 + 1) '─' ++ " " ++ message] ++
  remarks.flatMap (fun remark => [bar ++ " ", bar ++ " " ++ remark]) ++
  [run margin '─' ++ "╯"]

end Report

/-- The report of a diagnostic; every line ends with a newline. -/
def Diagnostic.report (d : Diagnostic) (file source : String) : String :=
  let level := match d.severity with
    | .error => "Error"
    | .warning => "Warning"
  let headline := level ++ ": " ++ d.kind.name ++ ": " ++ d.message
  let remarks := (d.help.map ("Help: " ++ ·)).toList ++ (d.notes.getLast?.map ("Note: " ++ ·)).toList
  let lines := match d.span with
    | none => [headline]
    | some span => headline :: Report.frame file source d.message span remarks
  String.join (lines.map (· ++ "\n"))

end Elementwise
