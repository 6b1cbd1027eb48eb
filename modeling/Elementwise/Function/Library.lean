import Elementwise.Diagnostic.Basic
import Elementwise.Function.Emitted

/-!
# Function libraries

A group is a named list of overloads. A call takes the first overload whose parameter types are the
argument types, else the first to which every argument converts; the order of registration decides.
-/

namespace Elementwise

/-- How a function is run: by a native body, or by code in place of the call. -/
inductive Implementation where
  | native (body : NativeBody)
  | emitted (generator : Generator)

/-- The name of the way a function is run. -/
def Implementation.name : Implementation → String
  | native _ => "Native"
  | emitted _ => "Emitted"

/-- One overload. -/
structure Function where
  signature : Signature
  implementation : Implementation

/-- The overloads of a name, in order of registration. -/
structure Group where
  name : String
  functions : List Function := []
  volumeOnly : Bool := false
  doc : String := ""

/-- A call that was resolved: the overload, how it fits, and its position. -/
structure Resolution where
  function : Function
  tier : MatchTier
  index : Nat

/-- A call that no overload takes. -/
structure ResolutionError where
  name : String
  args : List Ty
  /-- `size` or `none`. -/
  tier : MatchTier
  candidates : List Signature

/-- The text of a call that no overload takes. -/
def ResolutionError.message (e : ResolutionError) : String :=
  let call := e.name ++ "(" ++ Signature.listText e.args ++ ")"
  match e.tier with
  | .size => "invalid argument types for " ++ call
  | _ => "no overload of '" ++ e.name ++ "' takes " ++ Nat.repr e.args.length ++ " argument(s): " ++ call

/-- A generator whose result is not what its signature declares. -/
inductive GenerationError where
  | noValue (name : String) (signature : Signature)
  | typeMismatch (name : String) (signature : Signature) (found : Ty)

/-- The text of a wrong result. -/
def GenerationError.message : GenerationError → String
  | noValue name signature => "built-in " ++ name ++ signature.text ++ " produced no value"
  | typeMismatch name signature found =>
    "built-in " ++ name ++ signature.text ++ " produced " ++ found.text ++ ", declared " ++
      signature.ret.text

namespace Group

/-- The group with one more overload at the end. -/
def push (g : Group) (signature : Signature) (implementation : Implementation) : Group :=
  { g with functions := g.functions ++ [⟨signature, implementation⟩] }

/-- The signatures of the overloads. -/
def signatures (g : Group) : List Signature := g.functions.map Function.signature

/-- The first overload that fits in the given way. -/
def firstFit? (g : Group) (tier : MatchTier) (args : List Ty) : Option Resolution :=
  (g.functions.zipIdx.find? fun (f, _) => f.signature.fits tier args).map fun (f, i) => ⟨f, tier, i⟩

/-- The overload that a call takes. -/
def resolve (g : Group) (args : List Ty) : Except ResolutionError Resolution :=
  match g.firstFit? .explicit args with
  | some r => .ok r
  | none =>
    match g.firstFit? .implicit args with
    | some r => .ok r
    | none =>
      let sized := g.functions.any fun f => f.signature.acceptsCount args.length
      .error ⟨g.name, args, if sized then .size else .none, g.signatures⟩

end Group

/-- The groups that programs may call, by name. -/
abbrev Library := Table Group

namespace Library

/-- Add a group, in place of an earlier one of its name. -/
def add (l : Library) (g : Group) : Library := l.insert g.name g

/-- The overload that a call of a name takes. -/
def resolve (l : Library) (name : String) (args : List Ty) : Except ResolutionError Resolution :=
  match l.get? name with
  | some g => g.resolve args
  | none => .error ⟨name, args, .none, []⟩

end Library

end Elementwise
