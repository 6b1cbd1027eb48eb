import Elementwise.Code.Machine
import Elementwise.Compile.Generate
import Elementwise.Function.Standard

/-!
# Computing with data

What the operations of a program compute, without code or registers. A datum is a value with the type
that it has in the program; operations convert it, pick and replace components, and apply operators.
A computation also makes native calls: it adds them to the calls that were made, and ends with a result,
with the fault of a native body, or stuck where the program has no meaning.
-/

namespace Elementwise

/-- A value with the type that it has in the program. -/
structure Datum where
  ty : Ty
  value : Value

namespace Datum

/-- The zero of a type. -/
def zero (ty : Ty) : Datum := ⟨ty, .zero ty⟩

/-- A value with its own type. -/
def ofValue (v : Value) : Datum := ⟨v.ty, v⟩

/-- The datum converted to a type; itself if it has that type. -/
def convert (d : Datum) (goal : Ty) : Datum := if d.ty = goal then d else ⟨goal, d.value.convert goal⟩

/-- The datum converted to a type, if it converts implicitly. -/
def coerce? (d : Datum) (goal : Ty) : Option Datum := if d.ty.convertsTo goal then some (d.convert goal) else none

/-- A datum that was converted has the type that was asked for. -/
theorem ty_of_coerce? {d d' : Datum} {goal : Ty} (h : d.coerce? goal = some d') : d'.ty = goal := by
  simp only [coerce?, Option.ite_none_right_eq_some, Option.some.injEq] at h
  obtain ⟨-, rfl⟩ := h
  unfold convert
  split
  · assumption
  · rfl

/-- A scalar as a truth value. -/
def truth? (d : Datum) : Option Datum := if d.ty.isScalar then some (d.convert .bool) else none

/-- An integer as an index. -/
def index? (d : Datum) : Option Datum := if d.ty.isIntegerScalar then some (d.convert .int32) else none

/-- An operator on two data, with a result of the given type. -/
def binary (op : BinaryOp) (l r : Datum) (ty : Ty) : Datum := ⟨ty, Value.binary op l.value r.value⟩

/-- An operator on two data in their common type, if it fits them. -/
def operate? (op : BinaryOp) (l r : Datum) : Option Datum :=
  match if Generate.operandsFit op.opClass l.ty r.ty then Ty.common? l.ty r.ty else none with
  | none => none
  | some common =>
    let ty := Generate.operandTy op.opClass common
    some (binary op (l.convert ty) (r.convert ty) (Generate.resultTy op.opClass ty))

/-- An operator on one datum, if it fits. -/
def unary? (op : UnaryOp) (d : Datum) : Option Datum :=
  (Generate.unaryTy? op d.ty).map fun ty => ⟨ty, Value.unary op (d.convert ty).value⟩

/-- The number one place further or back. -/
def step (op : CrementOp) (d : Datum) : Datum := ⟨d.ty, Value.binary op.binary d.value ((Value.int32 1).convert d.ty)⟩

/-- A component; zero if there is none at the index. -/
def component (d index : Datum) : Datum :=
  ⟨d.ty.elementTy, (d.value.extractAt? index.value).getD (.zero d.ty.elementTy)⟩

/-- The datum with a component replaced. -/
def replace (d index component : Datum) : Datum := ⟨d.ty, d.value.insertAt index.value component.value⟩

/-- The position of a matrix entry by row and column. -/
def entryIndex (size : UInt8) (row column : Datum) : Datum :=
  binary .add (binary .mul row (ofValue (.int32 (Int32.ofInt size.toNat))) .int32) column .int32

/-- The components, one after another. -/
def components (d : Datum) : List Datum :=
  (List.range d.ty.componentCount).map fun (i : Nat) => d.component (ofValue (.int32 (Int32.ofInt i)))

/-- An array of a type from its components. -/
def ofComponents (items : List Datum) (ty : Ty) : Datum := ⟨ty, Value.pack (items.map value) ty⟩

/-- An array of scalars, converted to what they have in common. -/
def pack? (items : List Datum) : Option Datum :=
  (Generate.packTy? (items.map ty)).map fun ty => ofComponents (items.map fun d => d.convert ty.elementTy) ty

/-- The dot product. -/
def dot? (a b : Datum) : Option Datum :=
  match List.zipWith (fun x y => binary .mul x y a.ty.elementTy) a.components b.components with
  | [] => none
  | first :: rest => some (rest.foldl (fun total p => binary .add total p a.ty.elementTy) first)

/-- One component of a cross product. -/
def crossComponent (ty : Ty) (a b c d : Datum) : Datum := binary .sub (binary .mul a b ty) (binary .mul c d ty) ty

/-- The cross product of two vectors of three components. -/
def cross? (a b : Datum) : Option Datum :=
  match a.components, b.components with
  | [x0, x1, x2], [y0, y1, y2] =>
    let component := crossComponent a.ty.elementTy
    some (ofComponents [component x1 y2 x2 y1, component x2 y0 x0 y2, component x0 y1 x1 y0] a.ty)
  | _, _ => none

/-- The transposed matrix. -/
def transpose? (m : Datum) : Option Datum :=
  match m.ty with
  | .matrix _ n =>
    let size := n.toNat
    let entry? (i : Nat) := m.components[i % size * size + i / size]?
    some (ofComponents ((List.range (size * size)).filterMap entry?) m.ty)
  | _ => none

/-- The datum, or one in its place if it is zero. -/
def divisor (d : Datum) : Datum :=
  ⟨d.ty, if (Value.binary .eq d.value ((Value.int32 0).convert d.ty)).truthy then (Value.int32 1).convert d.ty
    else d.value⟩

end Datum

/-- How a computation ends, with the native calls made so far, the last one first. -/
inductive Answer (α : Type) where
  | value (a : α) (calls : List NativeCall)
  | fault (fault : Fault) (calls : List NativeCall)
  /-- The program has no meaning here. -/
  | stuck

/-- A computation that adds native calls to those that were made. -/
def Eval (α : Type) := List NativeCall → Answer α

namespace Eval

variable {α β : Type}

instance : Monad Eval where
  pure a calls := .value a calls
  bind x k calls :=
    match x calls with
    | .value a calls => k a calls
    | .fault fault calls => .fault fault calls
    | .stuck => .stuck

theorem bind_apply (x : Eval α) (k : α → Eval β) (calls : List NativeCall) :
    (x >>= k) calls = match x calls with
      | .value a calls => k a calls
      | .fault fault calls => .fault fault calls
      | .stuck => .stuck := rfl

/-- Giving back the result of a computation is that computation. -/
theorem bind_pure (x : Eval α) : x >>= pure = x := by
  funext calls
  rw [bind_apply]
  cases x calls <;> rfl

/-- There is no result. -/
def stuck : Eval α := fun _ => .stuck

/-- A result that may be missing. -/
def ofOption : Option α → Eval α
  | some a => pure a
  | none => stuck

/-- A call of a native body, which is kept. -/
def native (name : String) (body : NativeBody) (args : List Datum) (ret : Ty) : Eval Datum := fun calls =>
  let args := args.map Datum.value
  match body args with
  | some result => .value ⟨ret, result.value⟩ (⟨name, args, result.printed⟩ :: calls)
  | none => .fault (.native name) (⟨name, args, []⟩ :: calls)

end Eval

/-- The functions of the standard library that are no native calls. -/
inductive Builtin where
  | dot
  | cross
  | length
  | lengthsq
  | normalize
  | transpose
  /-- What the voxel provides. -/
  | voxel (op : Intrinsic)
  deriving DecidableEq

namespace Builtin

/-- The functions by name. -/
def table : List (String × Builtin) := [
  ("dot", dot), ("cross", cross), ("length", length), ("lengthsq", lengthsq), ("normalize", normalize),
  ("transpose", transpose), ("getcoordx", voxel .coordX), ("getcoordy", voxel .coordY),
  ("getcoordz", voxel .coordZ), ("getvoxelpws", voxel .worldPosition)]

/-- The function of a name. -/
def ofName? (name : String) : Option Builtin := table.lookup name

/-- The length of a vector: the square root is a native call. -/
def lengthOf (v : Datum) : Eval Datum := do
  let square ← Eval.ofOption (v.dot? v)
  Eval.native "sqrt" Native.sqrt [square] square.ty

/-- What a function computes from its arguments on an element. -/
def apply (element : ElementState) : Builtin → List Datum → Eval Datum
  | dot, [a, b] => Eval.ofOption (a.dot? b)
  | cross, [a, b] => Eval.ofOption (a.cross? b)
  | lengthsq, [v] => Eval.ofOption (v.dot? v)
  | length, [v] => lengthOf v
  | normalize, [v] => do
    let len ← lengthOf v
    return Datum.binary .div v (len.divisor.convert v.ty) v.ty
  | transpose, [m] => Eval.ofOption m.transpose?
  | voxel op, [] => return ⟨op.ty, op.value (element.coord.getD ⟨0, 0, 0⟩)⟩
  | _, _ => Eval.stuck

end Builtin

end Elementwise
