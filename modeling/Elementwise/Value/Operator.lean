import Elementwise.Value.Basic

/-!
# Operators on values

The meaning of every operator. The code that folds constants and the machine that runs programs
both use these functions, so a folded instruction has the value it would have had.
-/

namespace Elementwise.Value

/-- Arithmetic typed by the left operand, which stays as it is if it is no scalar. -/
def arith (op : BinaryOp) : Value → Value → Value
  | scalar l, r => scalar (l.arith op r.number)
  | l, _ => l

/-- An ordering operator: strings by their characters, all else as scalars. -/
def compare (op : BinaryOp) : Value → Value → Bool
  | string a, string b => Scalar.ordered op (a < b) (a == b) (b < a)
  | l, r => l.number.compare op r.number

/-- An operator on two operands. -/
def binary (op : BinaryOp) (l r : Value) : Value :=
  match op with
  | .eq => bool (l.equals r)
  | .ne => bool (!l.equals r)
  | .lt | .le | .gt | .ge => bool (compare op l r)
  | .and => bool (l.truthy && r.truthy)
  | .or => bool (l.truthy || r.truthy)
  | _ =>
    match l, r with
    | vector a, vector b => vector (List.zipWith (arith op) a b)
    | matrix a, matrix b => matrix (List.zipWith (arith op) a b)
    | _, _ => arith op l r

/-- An operator on a scalar operand. -/
def unaryScalar (op : UnaryOp) (s : Scalar) : Scalar :=
  match op with
  | .plus => s
  | .not => .bool !s.truthy
  | .neg => s.neg
  | .bitNot => s.bitNot

mutual
/-- An operator on one operand, component by component on arrays; negation of truth is on the whole
value. -/
def unary (op : UnaryOp) : Value → Value
  | scalar s => scalar (unaryScalar op s)
  | vector items =>
    match op with
    | .plus => vector items
    | .not => bool !(vector items).truthy
    | _ => vector (unaryItems op items)
  | matrix items =>
    match op with
    | .plus => matrix items
    | .not => bool !(matrix items).truthy
    | _ => matrix (unaryItems op items)
  | string s => if op = .not then bool !(string s).truthy else string s
  | void => if op = .not then bool !void.truthy else void

/-- An operator on every value of a list. -/
def unaryItems (op : UnaryOp) : List Value → List Value
  | [] => []
  | v :: rest => unary op v :: unaryItems op rest
end

end Elementwise.Value
