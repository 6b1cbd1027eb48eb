import Elementwise.Value.Scalar

/-!
# Values

What a register, an attribute or a voxel holds. Vectors and matrices normally hold scalars of one
kind, matrices row by row; nothing in the type forces it, and every operation is defined on all
values: where a scalar is wanted, any other value counts as zero.
-/

namespace Elementwise

/-- A value of the language. -/
inductive Value where
  | scalar (s : Scalar)
  | vector (items : List Value)
  | matrix (items : List Value)
  | string (s : String)
  | void

namespace Value

/-- A truth value. -/
abbrev bool (b : Bool) : Value := scalar (.bool b)

/-- A 32-bit integer. -/
abbrev int32 (n : Int32) : Value := scalar (.int32 n)

/-- A 32-bit floating number. -/
abbrev float (x : Float32) : Value := scalar (.float x)

/-- A 64-bit floating number. -/
abbrev double (x : Float) : Value := scalar (.double x)

/-- A vector of three 32-bit floating numbers. -/
def vec3f (x y z : Float32) : Value := vector [float x, float y, float z]

/-- A vector of three 64-bit floating numbers. -/
def vec3d (x y z : Float) : Value := vector [double x, double y, double z]

/-- A vector of three 32-bit integers. -/
def vec3i (x y z : Int32) : Value := vector [int32 x, int32 y, int32 z]

/-- The zero of a type: false, zero, the empty string, zero in every component. -/
def zero : Ty → Value
  | .scalar kind => scalar kind.zero
  | .vector kind n => vector (List.replicate n.toNat (scalar kind.zero))
  | .matrix kind n => matrix (List.replicate (n.toNat * n.toNat) (scalar kind.zero))
  | .string => string ""
  | .void => void

/-- The kind of a scalar value. -/
def scalarKind? : Value → Option ScalarKind
  | scalar s => some s.kind
  | _ => none

/-- The kind that the first component gives to an array. -/
def elementKind : List Value → ScalarKind
  | scalar s :: _ => s.kind
  | _ => .float

/-- The type of a value. The size of a vector is kept in eight bits, and any matrix without sixteen
entries has three rows. -/
def ty : Value → Ty
  | scalar s => .scalar s.kind
  | vector items => .vector (elementKind items) (UInt8.ofNat items.length)
  | matrix items => .matrix (elementKind items) (if items.length = 16 then 4 else 3)
  | string _ => .string
  | void => .void

/-- The components of an array; any other value is its own single component. -/
def components : Value → List Value
  | vector items | matrix items => items
  | other => [other]

/-- The value as a scalar; a value that is none counts as zero. -/
def number : Value → Scalar
  | scalar s => s
  | _ => .int64 0

/-- The value as a 64-bit floating number. -/
def toFloat (v : Value) : Float := v.number.toFloat

/-- The value as a 64-bit integer. -/
def toInt64 (v : Value) : Int64 := v.number.toInt64

/-- Whether a value counts as true: a scalar that is not zero or a string that is not empty. -/
def truthy : Value → Bool
  | string s => !s.isEmpty
  | v => v.number.truthy

/-- The characters of a string value. -/
def string? : Value → Option String
  | string s => some s
  | _ => none

mutual
/-- Equality of values of one shape; floating numbers are compared as numbers. -/
def equals : Value → Value → Bool
  | scalar a, scalar b => a.equals b
  | vector a, vector b => equalItems a b
  | matrix a, matrix b => equalItems a b
  | string a, string b => a == b
  | void, void => true
  | _, _ => false

/-- Equality of lists of values. -/
def equalItems : List Value → List Value → Bool
  | [], [] => true
  | a :: as, b :: bs => equals a b && equalItems as bs
  | _, _ => false
end

/-- An array of the given components: a matrix for a matrix type, else a vector. -/
def pack (items : List Value) : Ty → Value
  | .matrix _ _ => matrix items
  | _ => vector items

/-- A component of an array. -/
def extract? (v : Value) (i : Nat) : Option Value :=
  match v with
  | vector items | matrix items => items[i]?
  | _ => none

/-- An array with one component replaced; nothing changes beyond the end or without components. -/
def insert (v : Value) (i : Nat) (component : Value) : Value :=
  match v with
  | vector items => vector (items.set i component)
  | matrix items => matrix (items.set i component)
  | other => other

/-- The position that a value stands for as an index; there is none below zero. -/
def index? (v : Value) : Option Nat :=
  let i := v.toInt64.toInt
  if 0 ≤ i then some i.toNat else none

/-- The component at an index that is itself a value. -/
def extractAt? (v i : Value) : Option Value := i.index?.bind v.extract?

/-- An array with the component at an index replaced; nothing changes if there is none. -/
def insertAt (v i component : Value) : Value :=
  match i.index? with
  | some i => v.insert i component
  | none => v

mutual
/-- The text of a value. -/
def text : Value → String
  | scalar s => s.text
  | vector items | matrix items => "[" ++ String.intercalate ", " (texts items) ++ "]"
  | string s => s
  | void => "void"

/-- The texts of a list of values. -/
def texts : List Value → List String
  | [] => []
  | v :: rest => text v :: texts rest
end

end Value

end Elementwise
