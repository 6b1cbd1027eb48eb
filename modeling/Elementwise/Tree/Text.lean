import Elementwise.Tree.Term

/-!
# Trees as text

One line for every node, indented by its depth.
-/

namespace Elementwise

namespace Term

/-- One line of text at a depth. -/
def line (depth : Nat) (content : String) : String :=
  String.ofList (List.replicate (2 * depth) ' ') ++ content ++ "\n"

mutual
/-- The lines of a term, from the given depth. -/
def textAt (depth : Nat) : Term → String
  | .missing id => line depth ("<freed " ++ id.text ++ ">")
  | .node _ content => line depth content.label ++ textNode (depth + 1) content

/-- The lines of the children of a node. -/
def textNode (depth : Nat) : Node Term → String
  | .block statements => textList depth statements
  | .conditional condition thenBranch elseBranch =>
    condition.textAt depth ++ thenBranch.textAt depth ++ elseBranch.textAt depth
  | .loop _ start condition step body =>
    textOption depth start ++ textOption depth condition ++ textOption depth step ++ body.textAt depth
  | .declare _ name start => name.textAt depth ++ textOption depth start
  | .binary _ left right => left.textAt depth ++ right.textAt depth
  | .unary _ operand => operand.textAt depth
  | .crement _ _ target => target.textAt depth
  | .assign target value _ => target.textAt depth ++ value.textAt depth
  | .cast _ operand => operand.textAt depth
  | .call _ args => textList depth args
  | .pack items => textList depth items
  | .unpack array index column => array.textAt depth ++ index.textAt depth ++ textOption depth column
  | .jump _ | .value _ | .localName _ | .field _ _ _ _ | .external _ _ => ""

/-- The lines of a list of terms. -/
def textList (depth : Nat) : List Term → String
  | [] => ""
  | term :: rest => term.textAt depth ++ textList depth rest

/-- The lines of a term that may be absent. -/
def textOption (depth : Nat) : Option Term → String
  | none => ""
  | some term => term.textAt depth
end

end Term

/-- The text of a program. -/
def Tree.text (t : Tree) : String := t.program.textAt 0

end Elementwise
