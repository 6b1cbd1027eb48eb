import Elementwise.Ty.Json

/-!
# Signatures

The parameter types of a function, its result type, and how argument types fit them: exactly, or
through implicit conversion.
-/

namespace Elementwise

/-- How well a call fits, best first. -/
inductive MatchTier where
  /-- The argument types are the parameter types. -/
  | explicit
  /-- Every argument converts to its parameter. -/
  | implicit
  /-- Only the number of arguments fits. -/
  | size
  /-- No overload takes this many arguments. -/
  | none
  deriving DecidableEq, Repr

/-- The name of a tier. -/
def MatchTier.name : MatchTier → String
  | .explicit => "explicit"
  | .implicit => "implicit"
  | .size => "size"
  | .none => "none"

/-- Parameter types, result type and which parameters are only read. A variadic signature takes any
number of further arguments of its last parameter type. -/
structure Signature where
  params : List Ty
  ret : Ty
  variadic : Bool := false
  readonly : List Bool := List.replicate params.length false
  deriving DecidableEq, Repr

namespace Signature

/-- The same signature with every parameter only read. -/
def reading (s : Signature) : Signature :=
  { s with readonly := List.replicate s.params.length true }

/-- Whether a number of arguments fits. -/
def acceptsCount (s : Signature) (count : Nat) : Bool :=
  if s.variadic then s.params.length ≤ count else count == s.params.length

/-- The type of the parameter that receives an argument, and whether it is only read. -/
def param? (s : Signature) (i : Nat) : Option (Ty × Bool) :=
  let n := s.params.length
  let position := if s.variadic && n ≤ i then n - 1 else i
  s.params[position]?.map fun ty => (ty, s.readonly[position]?.getD false)

/-- Whether one argument type fits the parameter that receives it. -/
def accepts (s : Signature) (tier : MatchTier) (i : Nat) (arg : Ty) : Bool :=
  match s.param? i with
  | some (param, readonly) =>
    if tier = .explicit then arg == param else arg.convertsToParameter param readonly
  | none => false

/-- Whether the argument types fit in the given way. -/
def fits (s : Signature) (tier : MatchTier) (args : List Ty) : Bool :=
  s.acceptsCount args.length && args.zipIdx.all fun (arg, i) => s.accepts tier i arg

/-- Types separated by commas. -/
def listText (types : List Ty) : String := String.intercalate ", " (types.map Ty.text)

/-- The text of a signature. -/
def text (s : Signature) : String :=
  "(" ++ listText s.params ++ (if s.variadic then "..." else "") ++ ") -> " ++ s.ret.text

/-- A signature as structured data. -/
def toJson (s : Signature) : Json :=
  .record [
    ("params", .array (s.params.map Ty.toJson)),
    ("ret", s.ret.toJson),
    ("variadic", .bool s.variadic),
    ("readonly", .array (s.readonly.map Json.bool))]

end Signature

end Elementwise
