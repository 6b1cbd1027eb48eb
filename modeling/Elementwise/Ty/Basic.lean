/-!
# Types

Scalars of six kinds in promotion order, vectors and square matrices of scalars, strings and void.
A scalar converts to any scalar, vector or matrix; arrays convert to arrays of their own size.
-/

namespace Elementwise

/-- The kinds of scalars, in promotion order. -/
inductive ScalarKind where
  | bool
  | int16
  | int32
  | int64
  | float
  | double
  deriving DecidableEq, Repr

namespace ScalarKind

/-- All kinds, in promotion order. -/
def all : List ScalarKind := [bool, int16, int32, int64, float, double]

/-- Whether the kind is one of the integer kinds. -/
def isInteger : ScalarKind → Bool
  | int16 | int32 | int64 => true
  | _ => false

/-- Whether the kind is one of the floating kinds. -/
def isFloating : ScalarKind → Bool
  | float | double => true
  | _ => false

/-- The name of a kind. -/
def name : ScalarKind → String
  | bool => "bool"
  | int16 => "int16"
  | int32 => "int32"
  | int64 => "int64"
  | float => "float"
  | double => "double"

/-- The position in promotion order. -/
def rank : ScalarKind → Nat
  | bool => 0
  | int16 => 1
  | int32 => 2
  | int64 => 3
  | float => 4
  | double => 5

/-- The later of two kinds in promotion order. -/
def promote (a b : ScalarKind) : ScalarKind := if a.rank ≤ b.rank then b else a

/-- The kind a scalar takes as a vector component. -/
def component : ScalarKind → ScalarKind
  | float => float
  | double => double
  | _ => int32

/-- The kind a scalar takes as a matrix entry. -/
def entry : ScalarKind → ScalarKind
  | double => double
  | _ => float

/-- The letter that ends the name of an array of this kind. -/
def suffix : ScalarKind → String
  | double => "d"
  | float => "f"
  | _ => "i"

end ScalarKind

/-- The type of an expression, attribute or volume. -/
inductive Ty where
  | scalar (kind : ScalarKind)
  | vector (kind : ScalarKind) (size : UInt8)
  | matrix (kind : ScalarKind) (size : UInt8)
  | string
  | void
  deriving DecidableEq, Repr

namespace Ty

/-- Truth values. -/
abbrev bool : Ty := scalar .bool

/-- 32-bit integers. -/
abbrev int32 : Ty := scalar .int32

/-- 32-bit floating numbers. -/
abbrev float : Ty := scalar .float

/-- 64-bit floating numbers. -/
abbrev double : Ty := scalar .double

/-- Three 32-bit floating numbers. -/
abbrev vec3f : Ty := vector .float 3

/-- The vector type of a size from two to four, with the component kind of a scalar. -/
def vector? (kind : ScalarKind) (size : UInt8) : Option Ty :=
  if 2 ≤ size ∧ size ≤ 4 then some (vector kind.component size) else none

/-- The matrix type of three or four rows, with the entry kind of a scalar. -/
def matrix? (kind : ScalarKind) (size : UInt8) : Option Ty :=
  if size = 3 ∨ size = 4 then some (matrix kind.entry size) else none

/-- The array type that holds a number of scalars. -/
def array? (kind : ScalarKind) : Nat → Option Ty
  | 2 => vector? kind 2
  | 3 => vector? kind 3
  | 4 => vector? kind 4
  | 9 => matrix? kind 3
  | 16 => matrix? kind 4
  | _ => none

/-- The kind of the scalars in a value of the type. -/
def element? : Ty → Option ScalarKind
  | scalar kind | vector kind _ | matrix kind _ => some kind
  | string | void => none

/-- The type of one component; void if there is none. -/
def elementTy (ty : Ty) : Ty :=
  match ty.element? with
  | some kind => scalar kind
  | none => void

/-- The number of scalars in a value of the type. -/
def componentCount : Ty → Nat
  | scalar _ => 1
  | vector _ n => n.toNat
  | matrix _ n => n.toNat * n.toNat
  | string | void => 0

/-- Whether the type is a scalar. -/
def isScalar : Ty → Bool
  | scalar _ => true
  | _ => false

/-- Whether the type is a vector or a matrix. -/
def isArray : Ty → Bool
  | vector _ _ | matrix _ _ => true
  | _ => false

/-- Whether the type is made of scalars. -/
def isNumeric (ty : Ty) : Bool := ty.element?.isSome

/-- Whether the type is an integer or truth value. -/
def isIntegerScalar : Ty → Bool
  | scalar kind => kind.isInteger || kind == .bool
  | _ => false

/-- The same shape with another kind of scalar. -/
def withElement (ty : Ty) (kind : ScalarKind) : Ty :=
  match ty with
  | scalar _ => scalar kind
  | vector _ n => vector kind.component n
  | matrix _ n => matrix kind.entry n
  | other => other

/-- The text of a type. -/
def text : Ty → String
  | scalar kind => kind.name
  | vector kind n => "vec" ++ Nat.repr n.toNat ++ kind.suffix
  | matrix kind n => "mat" ++ Nat.repr n.toNat ++ kind.suffix
  | string => "string"
  | void => "void"

/-- The types that have a name of their own. -/
def named : List Ty :=
  ScalarKind.all.map scalar ++ [string, void] ++
    [vector .int32 2, vector .float 2, vector .double 2,
     vector .int32 3, vector .float 3, vector .double 3,
     vector .int32 4, vector .float 4, vector .double 4,
     matrix .float 3, matrix .double 3, matrix .float 4, matrix .double 4]

/-- The type of a name; the integers have a second name each. -/
def ofName? (name : String) : Option Ty :=
  match name with
  | "short" => some (scalar .int16)
  | "int" => some (scalar .int32)
  | "long" => some (scalar .int64)
  | name => named.find? fun ty => ty.text == name

/-- Whether a value of the first type may be assigned to the second without a cast. -/
def convertsTo (source target : Ty) : Bool :=
  source == target ||
    match source, target with
    | scalar _, scalar _ | scalar _, vector _ _ | scalar _, matrix _ _ => true
    | vector _ a, vector _ b => a == b
    | matrix _ a, matrix _ b => a == b
    | _, _ => false

/-- Whether an argument of the first type may be passed to a parameter of the second: an array goes
to an array of another kind only if the parameter is read-only. -/
def convertsToParameter (source target : Ty) (readonly : Bool) : Bool :=
  source == target ||
    match source, target with
    | vector _ _, vector _ _ | matrix _ _, matrix _ _ => readonly && source.convertsTo target
    | _, _ => source.convertsTo target

/-- The type to which both operands of an operator are promoted. -/
def common? : Ty → Ty → Option Ty
  | string, string => some string
  | scalar a, scalar b => some (scalar (a.promote b))
  | scalar s, vector k n | vector k n, scalar s => some ((vector k n).withElement (k.promote s))
  | scalar s, matrix k n | matrix k n, scalar s => some ((matrix k n).withElement (k.promote s))
  | vector a n, vector b m => if n = m then some (vector (a.promote b) n) else none
  | matrix a n, matrix b m => if n = m then some (matrix (a.promote b) n) else none
  | _, _ => none

end Ty

end Elementwise
