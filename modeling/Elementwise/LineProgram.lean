import Elementwise.Compile.Basic
import Elementwise.Text.Blank

/-!
# Line programs

A small textual form of programs: statements `target = term + term + ...`, each ended by a
semicolon, with words divided by spaces. A term is a field `@x`, `f@x` or `i@x`, a number, or a call
`name()` without arguments.
-/

namespace Elementwise

namespace LineProgram

/-- A word and the position of its first byte. -/
structure Word where
  text : List Char
  start : Nat
  deriving DecidableEq, Repr

/-- A statement: its words, and where it starts and stops. -/
structure Statement where
  words : List Word
  start : Nat
  stop : Nat
  deriving DecidableEq, Repr

/-- Why a text is no program. -/
inductive ReadError where
  | unended (position : Nat)
  | noAssignment (start stop : Nat)
  | noExpression (start stop : Nat)
  | badTerm (word : Word)
  deriving DecidableEq, Repr

/-- The number of bytes of a piece of text. -/
def byteSize : List Char → Nat
  | [] => 0
  | c :: rest => c.utf8Size + byteSize rest

/-- The span of a word. -/
def Word.span (w : Word) : Span := ⟨0, w.start, w.start + byteSize w.text⟩

/-- The text of an error. -/
def ReadError.message : ReadError → String
  | unended _ => "expected ';'"
  | noAssignment _ _ => "expected 'lhs = expr'"
  | noExpression _ _ => "expected an expression"
  | badTerm word => "unexpected '" ++ String.ofList word.text ++ "'"

/-- The place of an error. -/
def ReadError.span : ReadError → Span
  | unended position => ⟨0, position, position⟩
  | noAssignment start stop | noExpression start stop => ⟨0, start, stop⟩
  | badTerm word => word.span

/-- The pieces of a text between the occurrences of a character. -/
def pieces (c : Char) : List Char → List (List Char)
  | [] => [[]]
  | d :: rest =>
    if d = c then [] :: pieces c rest
    else
      match pieces c rest with
      | piece :: more => (d :: piece) :: more
      | [] => [[d]]

/-- The words among pieces that follow each other with one byte between them. -/
def wordsFrom (start : Nat) : List (List Char) → List Word
  | [] => []
  | piece :: rest =>
    let more := wordsFrom (start + byteSize piece + 1) rest
    if piece.isEmpty then more else ⟨piece, start⟩ :: more

/-- The statements of pieces that were divided by semicolons. Only blanks may follow the last
semicolon. -/
def statementsFrom (start : Nat) : List (List Char) → Except ReadError (List Statement)
  | [] => .ok []
  | [last] => if last.all Text.isBlank then .ok [] else .error (.unended (start + byteSize last))
  | piece :: rest => do
    let stop := start + byteSize piece + 1
    let more ← statementsFrom stop rest
    return ⟨wordsFrom start (pieces ' ' piece), start, stop⟩ :: more

/-- The tree that is built, and the spans of its nodes. -/
structure Draft where
  tree : Tree := .empty 0
  spans : List (NodeId × Span) := []

/-- A step of reading. -/
abbrev ReadM := StateT Draft (Except ReadError)

/-- Add a node, and its span if it has one. -/
def addNode (node : Node NodeId) (span : Option Span) : ReadM NodeId := do
  let draft ← get
  let (id, tree) := draft.tree.alloc node
  let spans := match span with
    | some span => draft.spans ++ [(id, span)]
    | none => draft.spans
  set ({ tree, spans } : Draft)
  return id

/-- The name of a call `name()`. -/
def callName? (text : List Char) : Option String :=
  match text.reverse with
  | ')' :: '(' :: name => some (String.ofList name.reverse)
  | _ => none

/-- The field of a word `@x`, `f@x` or `i@x`. -/
def fieldNode? : List Char → Option (Node NodeId)
  | 'i' :: '@' :: name => some (.field (String.ofList name) .int32 false false)
  | 'f' :: '@' :: name => some (.field (String.ofList name) .float false false)
  | '@' :: name => some (.field (String.ofList name) .float true false)
  | _ => none

/-- The number of a word: an integer if it is one, else a decimal. -/
def numberNode? (text : List Char) : Option (Node NodeId) :=
  let text := String.ofList text
  match Number.readInt32? text with
  | some n => some (.value (.int32 n))
  | none => (Number.readFloat32? text).map fun x => .value (.float x.toBits)

/-- The node of a word. -/
def termNode? (text : List Char) : Option (Node NodeId) :=
  match callName? text with
  | some name => some (.call name [])
  | none => (fieldNode? text).or (numberNode? text)

/-- Add the node of a term. -/
def term (word : Word) : ReadM NodeId :=
  match termNode? word.text with
  | some node => addNode node (some word.span)
  | none => throw (.badTerm word)

/-- Add the sum of a node and further terms. -/
def sum (first : NodeId) : List Word → ReadM NodeId
  | [] => return first
  | word :: rest => do
    let right ← term word
    let both ← addNode (.binary .add first right) none
    sum both rest

/-- Add a statement. -/
def statement (s : Statement) : ReadM Unit := do
  match s.words with
  | target :: ⟨['='], _⟩ :: rest =>
    let target ← term target
    match rest.filter fun word => word.text ≠ ['+'] with
    | [] => throw (.noExpression s.start s.stop)
    | first :: more =>
      let first ← term first
      let source ← sum first more
      let assign ← addNode (.assign target source none) (some ⟨0, s.start, s.stop⟩)
      modify fun draft => { draft with tree := (draft.tree.append assign).toOption.getD draft.tree }
  | _ => throw (.noAssignment s.start s.stop)

/-- Read a program: its tree, and the spans of its nodes. -/
def read (text : String) : Except ReadError (Tree × SourceMap) := do
  let statements ← statementsFrom 0 (pieces ';' text.toList)
  let (_, draft) ← (statements.forM statement).run {}
  let map := draft.spans.foldl (fun map (id, span) => map.insert id span) (SourceMap.empty draft.tree)
  return (draft.tree, map)

/-- Compile the text of a program for a target. -/
def compile (text : String) (target : Target) (options : CompileOptions) :
    Except CompileFailure Executable :=
  match read text with
  | .ok (tree, map) => tree.compile map target options
  | .error e => .error ⟨none, [.error .unreadable e.message (some e.span)]⟩

end LineProgram

end Elementwise
