/-!
# Operators and keywords

The operators of the language with the symbols they are written by, and the families that share
their typing rules.
-/

namespace Elementwise

/-- Operators on two operands. -/
inductive BinaryOp where
  | add
  | sub
  | mul
  | div
  | rem
  | eq
  | ne
  | lt
  | le
  | gt
  | ge
  | and
  | or
  | bitAnd
  | bitOr
  | bitXor
  | shl
  | shr
  deriving DecidableEq, Repr

/-- Families of operators with common typing rules. -/
inductive OpClass where
  | arithmetic
  | equality
  | relational
  | logical
  | bitwise
  deriving DecidableEq, Repr

namespace BinaryOp

/-- All operators; the position of one is its code. -/
def all : List BinaryOp :=
  [add, sub, mul, div, rem, eq, ne, lt, le, gt, ge, and, or, bitAnd, bitOr, bitXor, shl, shr]

/-- How an operator is written. -/
def symbol : BinaryOp → String
  | add => "+"
  | sub => "-"
  | mul => "*"
  | div => "/"
  | rem => "%"
  | eq => "=="
  | ne => "!="
  | lt => "<"
  | le => "<="
  | gt => ">"
  | ge => ">="
  | and => "&&"
  | or => "||"
  | bitAnd => "&"
  | bitOr => "|"
  | bitXor => "^"
  | shl => "<<"
  | shr => ">>"

/-- The family of an operator. -/
def opClass : BinaryOp → OpClass
  | add | sub | mul | div | rem => .arithmetic
  | eq | ne => .equality
  | lt | le | gt | ge => .relational
  | and | or => .logical
  | bitAnd | bitOr | bitXor | shl | shr => .bitwise

/-- The operator that is written by a symbol. -/
def ofSymbol? (s : String) : Option BinaryOp := all.find? fun op => op.symbol == s

end BinaryOp

/-- Operators on one operand. -/
inductive UnaryOp where
  | neg
  | plus
  | not
  | bitNot
  deriving DecidableEq, Repr

namespace UnaryOp

/-- All operators; the position of one is its code. -/
def all : List UnaryOp := [neg, plus, not, bitNot]

/-- How an operator is written. -/
def symbol : UnaryOp → String
  | neg => "-"
  | plus => "+"
  | not => "!"
  | bitNot => "~"

/-- The operator that is written by a symbol. -/
def ofSymbol? (s : String) : Option UnaryOp := all.find? fun op => op.symbol == s

end UnaryOp

/-- Stepping a variable by one. -/
inductive CrementOp where
  | increment
  | decrement
  deriving DecidableEq, Repr

namespace CrementOp

/-- How the step is written. -/
def symbol : CrementOp → String
  | increment => "++"
  | decrement => "--"

/-- The operator that computes the step. -/
def binary : CrementOp → BinaryOp
  | increment => .add
  | decrement => .sub

end CrementOp

/-- The kinds of loops. -/
inductive LoopKind where
  | for
  | while
  | doWhile
  deriving DecidableEq, Repr

/-- How a loop is written. -/
def LoopKind.name : LoopKind → String
  | .for => "for"
  | .while => "while"
  | .doWhile => "do-while"

/-- The words that leave the normal flow of statements. -/
inductive Jump where
  | return
  | break
  | continue
  deriving DecidableEq, Repr

/-- How a jump is written. -/
def Jump.name : Jump → String
  | .return => "return"
  | .break => "break"
  | .continue => "continue"

end Elementwise
