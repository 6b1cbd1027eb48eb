import Elementwise.Function.Library

/-!
# The standard library

The groups that every program may call. The order of overloads decides between conversions and is
part of what the library means.
-/

namespace Elementwise.Library

/-- The floating types. -/
def floats : List Ty := [.double, .float]

/-- The types of the comparing functions. -/
def scalars : List Ty := [.int32, .double, .float]

/-- The floating vectors, then the integer one, of a size. -/
def vectorsOf (size : UInt8) : List Ty := [.vector .double size, .vector .float size, .vector .int32 size]

/-- All vectors. -/
def vectors : List Ty := vectorsOf 2 ++ vectorsOf 3 ++ vectorsOf 4

/-- The floating vectors. -/
def floatVectors : List Ty := vectors.filter fun ty => ty.element? != some .int32

/-- All matrices. -/
def matrices : List Ty := [.matrix .float 3, .matrix .double 3, .matrix .float 4, .matrix .double 4]

/-- A group with one native overload for each type: `arity` parameters of the type and a result
that depends on it. -/
def nativeGroup (name doc : String) (types : List Ty) (arity : Nat) (ret : Ty → Ty) (body : NativeBody) : Group :=
  { name, doc, functions := types.map fun ty => ⟨{ params := List.replicate arity ty, ret := ret ty }, .native body⟩ }

/-- A group with one inline overload for each type, which only reads its parameters. -/
def inlineGroup (name doc : String) (types : List Ty) (arity : Nat) (ret : Ty → Ty) (generator : Generator) : Group :=
  { name, doc
    functions := types.map fun ty =>
      ⟨{ params := List.replicate arity ty, ret := ret ty : Signature }.reading, .emitted generator⟩ }

/-- A group without parameters that only volume programs may call. -/
def voxelGroup (name doc : String) (op : Intrinsic) : Group :=
  { name, doc, volumeOnly := true
    functions := [⟨{ params := [], ret := op.ty }, .emitted (Emitted.intrinsic op)⟩] }

/-- The groups of the standard library. -/
def standardGroups : List Group := [
  nativeGroup "abs" "Absolute value." [.int32, .scalar .int64, .float, .double] 1 id Native.abs,
  nativeGroup "sqrt" "Square root." floats 1 id Native.sqrt,
  nativeGroup "sin" "Sine of an angle in radians." floats 1 id Native.sin,
  nativeGroup "cos" "Cosine of an angle in radians." floats 1 id Native.cos,
  nativeGroup "tan" "Tangent of an angle in radians." floats 1 id Native.tan,
  nativeGroup "exp" "e raised to the argument." floats 1 id Native.exp,
  nativeGroup "log" "Natural logarithm." floats 1 id Native.log,
  nativeGroup "floor" "Round down." floats 1 id Native.floor,
  nativeGroup "ceil" "Round up." floats 1 id Native.ceil,
  nativeGroup "round" "Round half away from zero." floats 1 id Native.round,
  nativeGroup "pow" "First argument raised to the second." floats 2 id Native.pow,
  nativeGroup "min" "Smaller of two values." scalars 2 id Native.min,
  nativeGroup "max" "Larger of two values." scalars 2 id Native.max,
  nativeGroup "clamp" "Restrict a value to [min, max]." scalars 3 id Native.clamp,
  nativeGroup "lerp" "Linear interpolation between two values." floats 3 id Native.lerp,
  nativeGroup "fit" "Remap a value from one range to another, clamping to the source range."
    [.double] 5 id Native.fit,
  nativeGroup "mmmult" "Matrix product." matrices 2 id Native.mmmult,
  nativeGroup "print" "Log a value."
    [.int32, .scalar .int64, .float, .double, .string, .vec3f] 1 (fun _ => .void) Native.print,
  inlineGroup "dot" "Dot product." vectors 2 Ty.elementTy Emitted.dot,
  inlineGroup "cross" "Cross product." (vectorsOf 3) 2 id Emitted.cross,
  inlineGroup "length" "Euclidean length." floatVectors 1 Ty.elementTy Emitted.length,
  inlineGroup "lengthsq" "Squared euclidean length." floatVectors 1 Ty.elementTy Emitted.lengthsq,
  inlineGroup "normalize" "Unit vector in the same direction; zero stays zero." floatVectors 1 id
    Emitted.normalize,
  inlineGroup "transpose" "Matrix transpose." matrices 1 id Emitted.transpose,
  voxelGroup "getcoordx" "X index of the current voxel." .coordX,
  voxelGroup "getcoordy" "Y index of the current voxel." .coordY,
  voxelGroup "getcoordz" "Z index of the current voxel." .coordZ,
  voxelGroup "getvoxelpws" "World-space position of the current voxel center." .worldPosition]

/-- The standard library. -/
def standard : Library := standardGroups.foldl Library.add {}

/-- The native body of a group of the standard library. -/
def standardNative? (name : String) : Option NativeBody :=
  match (standard.get? name).bind fun g => g.functions.head? with
  | some ⟨_, .native body⟩ => some body
  | _ => none

/-- The generator of the first overload of a group of the standard library. -/
def standardGenerator? (name : String) : Option Generator :=
  match (standard.get? name).bind fun g => g.functions.head? with
  | some ⟨_, .emitted generator⟩ => some generator
  | _ => none

end Elementwise.Library
