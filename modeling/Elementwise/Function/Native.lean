import Elementwise.Code.Instr

/-!
# Native bodies of the standard library

One body serves every overload of its group: the kind of the first argument chooses the arithmetic.
A body has no answer if it needs an argument that is not there.
-/

namespace Elementwise.Native

/-- A body that prints nothing. -/
def silent (f : List Value → Option Value) : NativeBody := fun args => (f args).map fun v => ⟨v, []⟩

/-- A function of floating numbers in 64 bits, with a result as precise as the first argument. -/
def floating (f : List Float → Option Float) : NativeBody := silent fun args =>
  (f (args.map Value.toFloat)).map fun x =>
    match args with
    | .scalar (.float _) :: _ => .float (Number.narrow x)
    | _ => .double x

/-- A function of one floating number. -/
def floating1 (f : Float → Float) : NativeBody := floating fun xs => xs[0]?.map f

/-- A function of two floating numbers. -/
def floating2 (f : Float → Float → Float) : NativeBody := floating fun xs => do
  let x ← xs[0]?
  let y ← xs[1]?
  some (f x y)

/-- A function of three floating numbers. -/
def floating3 (f : Float → Float → Float → Float) : NativeBody := floating fun xs => do
  let x ← xs[0]?
  let y ← xs[1]?
  let z ← xs[2]?
  some (f x y z)

/-- The absolute value; the least integer has none and stays as it is. -/
def abs : NativeBody := silent fun
  | [] => some .void
  | .scalar (.int32 n) :: _ => some (.int32 (if n < 0 then -n else n))
  | .scalar (.int64 n) :: _ => some (.scalar (.int64 (if n < 0 then -n else n)))
  | .scalar (.float x) :: _ => some (.float x.abs)
  | v :: _ => some (.double v.toFloat.abs)

/-- The square root. -/
def sqrt : NativeBody := floating1 Float.sqrt

/-- The sine of an angle in radians. -/
def sin : NativeBody := floating1 Float.sin

/-- The cosine of an angle in radians. -/
def cos : NativeBody := floating1 Float.cos

/-- The tangent of an angle in radians. -/
def tan : NativeBody := floating1 Float.tan

/-- The exponential function. -/
def exp : NativeBody := floating1 Float.exp

/-- The natural logarithm. -/
def log : NativeBody := floating1 Float.log

/-- Rounding down. -/
def floor : NativeBody := floating1 Number.floor

/-- Rounding up. -/
def ceil : NativeBody := floating1 Number.ceiling

/-- Rounding to the nearest integer, a half away from zero. -/
def round : NativeBody := floating1 Number.round

/-- The first argument to the power of the second. -/
def pow : NativeBody := floating2 Float.pow

/-- Linear interpolation. -/
def lerp : NativeBody := floating3 fun a b t => a + (b - a) * t

/-- An argument as a floating number; one that is not there counts as zero. -/
def argument (args : List Value) (i : Nat) : Float := (args[i]?.map Value.toFloat).getD 0.0

/-- Limit a value to an old range and map it linearly to a new one. An old range of one point maps
to the middle of the new range. -/
def fitRange (x oldMin oldMax newMin newMax : Float) : Option Float :=
  if oldMin == oldMax then some ((newMin + newMax) * 0.5) else
  let (oldMin, oldMax, newMin, newMax) :=
    if oldMax < oldMin then (oldMax, oldMin, newMax, newMin) else (oldMin, oldMax, newMin, newMax)
  (Number.clamp? x oldMin oldMax).map fun x =>
    newMin + (newMax - newMin) * ((x - oldMin) / (oldMax - oldMin))

/-- Map a value from one range to another. -/
def fit : NativeBody := silent fun args =>
  let arg := argument args
  (fitRange (arg 0) (arg 1) (arg 2) (arg 3) (arg 4)).map Value.double

/-- One of two values, chosen by one function among integers and by another among floating numbers. -/
def choose (ofInts : Int32 → Int32 → Int32) (ofFloats : Float → Float → Float) : NativeBody := fun
  | [.scalar (.int32 a), .scalar (.int32 b)] => some ⟨.int32 (ofInts a b), []⟩
  | args => floating2 ofFloats args

/-- The smaller of two values. -/
def min : NativeBody := choose (fun a b => if b < a then b else a) Number.lesser

/-- The larger of two values. -/
def max : NativeBody := choose (fun a b => if a < b then b else a) Number.greater

/-- Limit an integer; the lower bound wins when the bounds cross. -/
def clampInt (n lo hi : Int32) : Int32 :=
  let n := if hi < n then hi else n
  if n < lo then lo else n

/-- Limit a value; the lower bound wins when the bounds cross. -/
def clamp : NativeBody := fun
  | [.scalar (.int32 n), .scalar (.int32 lo), .scalar (.int32 hi)] => some ⟨.int32 (clampInt n lo hi), []⟩
  | args => floating3 (fun x lo hi => Number.greater (Number.lesser x hi) lo) args

/-- One entry of a matrix product: the sum of products of a row and a column, from left to right. -/
def productEntry (size : Nat) (a b : List Value) (row column : Nat) : Float :=
  (List.range size).foldl (fun sum k =>
    sum + argument a (row * size + k) * argument b (k * size + column)) (-0.0)

/-- The product of two square matrices of one size, as precise as the entries of the first. -/
def matrixProduct (a b : List Value) : Value :=
  let size := if a.length = 16 then 4 else 3
  .matrix ((List.range (size * size)).map fun i =>
    let x := productEntry size a b (i / size) (i % size)
    match a with
    | .scalar (.double _) :: _ => .double x
    | _ => .float (Number.narrow x))

/-- The matrix product. -/
def mmmult : NativeBody := silent fun
  | a :: b :: _ => some (matrixProduct a.components b.components)
  | _ => some .void

/-- Print every argument. -/
def print : NativeBody := fun args => some ⟨.void, args.map Value.text⟩

end Elementwise.Native
