import Elementwise.Text.Quoted
import Elementwise.Value.Basic

/-!
# Nodes

The closed set of node shapes. A node is given over the type of its children: in an arena they are
names of other nodes, in a term they are terms.
-/

namespace Elementwise

/-- A literal: a scalar or a string. A floating literal is kept by its bits, which tell apart
numbers that no operation on values does. -/
inductive Literal where
  | bool (b : Bool)
  | int16 (n : Int16)
  | int32 (n : Int32)
  | int64 (n : Int64)
  | float (bits : UInt32)
  | double (bits : UInt64)
  | string (s : String)
  deriving DecidableEq

namespace Literal

/-- The value of a literal. -/
def toValue : Literal → Value
  | bool b => .bool b
  | int16 n => .scalar (.int16 n)
  | int32 n => .int32 n
  | int64 n => .scalar (.int64 n)
  | float bits => .float (Float32.ofBits bits)
  | double bits => .double (Float.ofBits bits)
  | string s => .string s

/-- The type of a literal. -/
def ty (l : Literal) : Ty := l.toValue.ty

/-- The text of a literal; strings are quoted. -/
def text : Literal → String
  | string s => Text.quote s
  | l => l.toValue.text

/-- The integer that a literal of an integer kind stands for. -/
def integer? : Literal → Option Int
  | int16 n => some n.toInt
  | int32 n => some n.toInt
  | int64 n => some n.toInt
  | _ => none

end Literal

/-- A node with children of type `α`. -/
inductive Node (α : Type) where
  /-- Statements in execution order. -/
  | block (statements : List α)
  | conditional (condition thenBranch elseBranch : α)
  | loop (kind : LoopKind) (start condition step : Option α) (body : α)
  | jump (word : Jump)
  /-- A declaration of the local that `name` is. -/
  | declare (ty : Ty) (name : α) (start : Option α)
  | binary (op : BinaryOp) (left right : α)
  | unary (op : UnaryOp) (operand : α)
  | crement (op : CrementOp) (post : Bool) (target : α)
  /-- An assignment, with the operator of its compound form. -/
  | assign (target value : α) (compound : Option BinaryOp)
  | cast (ty : Ty) (operand : α)
  | call (name : String) (args : List α)
  | pack (items : List α)
  /-- A component; `column` is there for a matrix entry by row and column. -/
  | unpack (array index : α) (column : Option α)
  | value (literal : Literal)
  | localName (name : String)
  /-- A field of the element, with the hint that it is written. -/
  | field (name : String) (ty : Ty) (inferred writable : Bool)
  /-- A named value of the host. -/
  | external (name : String) (ty : Ty)
  deriving DecidableEq

/-- The shapes of nodes without their content. -/
inductive NodeKind where
  | block
  | conditional
  | loop
  | jump
  | declare
  | binary
  | unary
  | crement
  | assign
  | cast
  | call
  | pack
  | unpack
  | value
  | localName
  | field
  | external
  deriving DecidableEq, Repr

namespace NodeKind

/-- All kinds. -/
def all : List NodeKind :=
  [block, conditional, loop, jump, declare, binary, unary, crement, assign, cast, call, pack,
   unpack, value, localName, field, external]

/-- The name of a kind. -/
def name : NodeKind → String
  | block => "Block"
  | conditional => "Conditional"
  | loop => "Loop"
  | jump => "Keyword"
  | declare => "DeclareLocal"
  | binary => "BinaryOperator"
  | unary => "UnaryOperator"
  | crement => "Crement"
  | assign => "Assign"
  | cast => "Cast"
  | call => "FunctionCall"
  | pack => "ArrayPack"
  | unpack => "ArrayUnpack"
  | value => "Value"
  | localName => "Local"
  | field => "Attribute"
  | external => "ExternalVariable"

end NodeKind

/-- What a node is good for. -/
inductive NodeCategory where
  | statement
  | expression
  | reference
  deriving DecidableEq, Repr

/-- All categories. -/
def NodeCategory.all : List NodeCategory := [statement, expression, reference]

/-- The name of a category. -/
def NodeCategory.name : NodeCategory → String
  | statement => "Statement"
  | expression => "Expression"
  | reference => "Variable"

/-- The category of a kind of node. -/
def NodeKind.category : NodeKind → NodeCategory
  | block | conditional | loop | jump | declare => .statement
  | localName | field | external => .reference
  | _ => .expression

/-- Whether a kind of node belongs to a category; every reference is an expression too. -/
def NodeKind.belongsTo (kind : NodeKind) (category : NodeCategory) : Bool :=
  kind.category == category || (category == .expression && kind.category == .reference)

namespace Node

variable {α β : Type}

/-- The kind of a node. -/
def kind : Node α → NodeKind
  | block _ => .block
  | conditional _ _ _ => .conditional
  | loop _ _ _ _ _ => .loop
  | jump _ => .jump
  | declare _ _ _ => .declare
  | binary _ _ _ => .binary
  | unary _ _ => .unary
  | crement _ _ _ => .crement
  | assign _ _ _ => .assign
  | cast _ _ => .cast
  | call _ _ => .call
  | pack _ => .pack
  | unpack _ _ _ => .unpack
  | value _ => .value
  | localName _ => .localName
  | field _ _ _ _ => .field
  | external _ _ => .external

/-- The children of a node, in order. -/
def children : Node α → List α
  | block statements => statements
  | conditional condition thenBranch elseBranch => [condition, thenBranch, elseBranch]
  | loop _ start condition step body => start.toList ++ condition.toList ++ step.toList ++ [body]
  | declare _ name start => name :: start.toList
  | binary _ left right => [left, right]
  | unary _ operand => [operand]
  | crement _ _ target => [target]
  | assign target source _ => [target, source]
  | cast _ operand => [operand]
  | call _ args => args
  | pack items => items
  | unpack array index column => array :: index :: column.toList
  | jump _ | value _ | localName _ | field _ _ _ _ | external _ _ => []

/-- The same node with every child replaced, one after another in order. -/
def mapM {m : Type → Type} [Monad m] (f : α → m β) : Node α → m (Node β)
  | block statements => return .block (← statements.mapM f)
  | conditional condition thenBranch elseBranch =>
    return .conditional (← f condition) (← f thenBranch) (← f elseBranch)
  | loop kind start condition step body =>
    return .loop kind (← start.mapM f) (← condition.mapM f) (← step.mapM f) (← f body)
  | jump word => return .jump word
  | declare ty name start => return .declare ty (← f name) (← start.mapM f)
  | binary op left right => return .binary op (← f left) (← f right)
  | unary op operand => return .unary op (← f operand)
  | crement op post target => return .crement op post (← f target)
  | assign target source compound => return .assign (← f target) (← f source) compound
  | cast ty operand => return .cast ty (← f operand)
  | call name args => return .call name (← args.mapM f)
  | pack items => return .pack (← items.mapM f)
  | unpack array index column => return .unpack (← f array) (← f index) (← column.mapM f)
  | value literal => return .value literal
  | localName name => return .localName name
  | field name ty inferred writable => return .field name ty inferred writable
  | external name ty => return .external name ty

/-- The same node with every child replaced. -/
def map (f : α → β) (node : Node α) : Node β := Id.run (node.mapM fun a => pure (f a))

/-- The name of a variable and, if the node tells it, its type. -/
def reference? : Node α → Option (String × Option Ty)
  | localName name => some (name, none)
  | field name ty _ _ => some (name, some ty)
  | external name ty => some (name, some ty)
  | _ => none

/-- The one-line text of a node without its children. -/
def label : Node α → String
  | block statements => "Block (" ++ Nat.repr statements.length ++ ")"
  | conditional _ _ _ => "Conditional"
  | loop kind _ _ _ _ => "Loop " ++ kind.name
  | jump word => "Keyword " ++ word.name
  | declare ty _ _ => "DeclareLocal " ++ ty.text
  | binary op _ _ => "BinaryOperator " ++ op.symbol
  | unary op _ => "UnaryOperator " ++ op.symbol
  | crement op post _ => "Crement " ++ (if post then "post" else "pre") ++ op.symbol
  | assign _ _ (some op) => "Assign " ++ op.symbol ++ "="
  | assign _ _ none => "Assign"
  | cast ty _ => "Cast " ++ ty.text
  | call name args => "FunctionCall " ++ name ++ " (" ++ Nat.repr args.length ++ ")"
  | pack items => "ArrayPack (" ++ Nat.repr items.length ++ ")"
  | unpack _ _ _ => "ArrayUnpack"
  | value literal => "Value " ++ literal.text ++ ": " ++ literal.ty.text
  | localName name => "Local " ++ name
  | field name ty inferred writable =>
    "Attribute @" ++ name ++ ": " ++ ty.text ++
      (if inferred then " (inferred)" else "") ++ (if writable then " (writable)" else "")
  | external name ty => "ExternalVariable $" ++ name ++ ": " ++ ty.text

end Node

end Elementwise
