import Elementwise.Number.Text
import Elementwise.Operator
import Elementwise.Ty.Basic

/-!
# Scalars

A scalar of one of the six kinds, its conversions, and arithmetic typed by the left operand.
Floating arithmetic is done in 64 bits and rounded to the kind; integer arithmetic wraps, and
dividing by zero gives zero.
-/

namespace Elementwise

/-- A scalar of one of the six kinds. -/
inductive Scalar where
  | bool (b : Bool)
  | int16 (n : Int16)
  | int32 (n : Int32)
  | int64 (n : Int64)
  | float (x : Float32)
  | double (x : Float)
  deriving DecidableEq

/-- The scalar of a kind that is nearest to a number; integers take the integer part. -/
def ScalarKind.ofFloat (kind : ScalarKind) (x : Float) : Scalar :=
  match kind with
  | bool => .bool (x != 0.0)
  | int16 => .int16 (Number.truncate16 x)
  | int32 => .int32 (Number.truncate32 x)
  | int64 => .int64 (Number.truncate64 x)
  | float => .float (Number.narrow x)
  | double => .double x

/-- The scalar of a kind for an integer; narrower integers keep the low bits. -/
def ScalarKind.ofInt64 (kind : ScalarKind) (n : Int64) : Scalar :=
  match kind with
  | bool => .bool (n != 0)
  | int16 => .int16 n.toInt16
  | int32 => .int32 n.toInt32
  | int64 => .int64 n
  | float => .float (Number.float32OfInt n.toInt)
  | double => .double (Number.floatOfInt n.toInt)

/-- The zero of a kind. -/
def ScalarKind.zero (kind : ScalarKind) : Scalar := kind.ofFloat 0.0

/-- The width in which shift amounts of a kind are taken. -/
def ScalarKind.shiftWidth : ScalarKind → Int
  | int16 => 16
  | int64 => 64
  | _ => 32

namespace Scalar

/-- The kind of a scalar. -/
def kind : Scalar → ScalarKind
  | bool _ => .bool
  | int16 _ => .int16
  | int32 _ => .int32
  | int64 _ => .int64
  | float _ => .float
  | double _ => .double

/-- The scalar as a 64-bit floating number. -/
def toFloat : Scalar → Float
  | bool b => if b then 1.0 else 0.0
  | int16 n => Number.floatOfInt n.toInt
  | int32 n => Number.floatOfInt n.toInt
  | int64 n => Number.floatOfInt n.toInt
  | float x => Number.widen x
  | double x => x

/-- The scalar as a 64-bit integer; floating numbers lose what is after the point. -/
def toInt64 : Scalar → Int64
  | bool b => if b then 1 else 0
  | int16 n => n.toInt64
  | int32 n => n.toInt64
  | int64 n => n
  | float x => Number.truncate64 (Number.widen x)
  | double x => Number.truncate64 x

/-- Whether the scalar counts as true: it is not zero. -/
def truthy : Scalar → Bool
  | bool b => b
  | float x => x != 0.0
  | double x => x != 0.0
  | s => s.toInt64 != 0

/-- The scalar converted to a kind. -/
def cast (s : Scalar) (kind : ScalarKind) : Scalar :=
  match s with
  | bool b => if kind = .bool then .bool b else kind.ofInt64 s.toInt64
  | float _ | double _ => kind.ofFloat s.toFloat
  | _ => kind.ofInt64 s.toInt64

/-- Equality of scalars of one kind; floating numbers are compared as numbers. -/
def equals : Scalar → Scalar → Bool
  | bool a, bool b => a == b
  | int16 a, int16 b => a == b
  | int32 a, int32 b => a == b
  | int64 a, int64 b => a == b
  | float a, float b => a == b
  | double a, double b => a == b
  | _, _ => false

/-- The operators that floating numbers have. -/
def floatArith? (op : BinaryOp) (a b : Float) : Option Float :=
  match op with
  | .add => some (a + b)
  | .sub => some (a - b)
  | .mul => some (a * b)
  | .div => some (a / b)
  | .rem => some (Number.remainder a b)
  | _ => none

/-- The operators that integers have; shift amounts are taken modulo `width`. -/
def intArith? (op : BinaryOp) (width : Int) (a b : Int64) : Option Int64 :=
  match op with
  | .add => some (a + b)
  | .sub => some (a - b)
  | .mul => some (a * b)
  | .div => some (if b = 0 then 0 else a / b)
  | .rem => some (if b = 0 then 0 else a % b)
  | .bitAnd => some (a &&& b)
  | .bitOr => some (a ||| b)
  | .bitXor => some (a ^^^ b)
  | .shl => some (a <<< Int64.ofInt (b.toInt % width))
  | .shr => some (a >>> Int64.ofInt (b.toInt % width))
  | _ => none

/-- Arithmetic typed by the left operand, which stays as it is under an operator its kind does not
have. Truth values compute as 32-bit integers. -/
def arith (op : BinaryOp) (l r : Scalar) : Scalar :=
  if l.kind.isFloating then
    match floatArith? op l.toFloat r.toFloat with
    | some x => l.kind.ofFloat x
    | none => l
  else
    match intArith? op l.kind.shiftWidth l.toInt64 r.toInt64 with
    | some n => (if l.kind = .bool then ScalarKind.int32 else l.kind).ofInt64 n
    | none => l

/-- An ordering operator on anything ordered by the given tests. -/
def ordered (op : BinaryOp) (less equal greater : Bool) : Bool :=
  match op with
  | .lt => less
  | .le => less || equal
  | .gt => greater
  | .ge => greater || equal
  | _ => false

/-- Compare two scalars: as floating numbers if one of them is, else as integers. -/
def compare (op : BinaryOp) (l r : Scalar) : Bool :=
  if l.kind.isFloating || r.kind.isFloating then
    let (a, b) := (l.toFloat, r.toFloat)
    ordered op (a < b) (a == b) (b < a)
  else
    let (a, b) := (l.toInt64, r.toInt64)
    ordered op (a < b) (a == b) (b < a)

/-- The negation of a scalar within its kind. -/
def neg : Scalar → Scalar
  | float x => .float (-x)
  | double x => .double (-x)
  | s => s.kind.ofInt64 (-s.toInt64)

/-- The complement of the bits of an integer; other kinds stay as they are. -/
def bitNot (s : Scalar) : Scalar :=
  if s.kind.isInteger then s.kind.ofInt64 (~~~s.toInt64) else s

/-- The text of a scalar. -/
def text : Scalar → String
  | bool b => if b then "true" else "false"
  | int16 n => toString n.toInt
  | int32 n => toString n.toInt
  | int64 n => toString n.toInt
  | float x => Number.text32 x
  | double x => Number.text64 x

end Scalar

end Elementwise
