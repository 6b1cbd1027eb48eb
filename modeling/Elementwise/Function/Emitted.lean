import Elementwise.Code.Builder
import Elementwise.Function.Native

/-!
# Inline functions of the standard library

Functions whose code is put in place of the call. A generator gets the operands of the call and
gives the operand of the result; it gives none if it cannot be applied.
-/

namespace Elementwise

/-- Puts the code of a function in place of its call; it may look at the values of the host. -/
abbrev Generator := CustomData → List Operand → OptionT BuildM Operand

namespace Emitted

/-- The components of an operand, one after another. -/
def components (v : Operand) : BuildM (List Operand) :=
  (List.range v.ty.componentCount).mapM fun i => Builder.extractAt v i

/-- Add operands from left to right to a first one. -/
def sum (ty : Ty) : Operand → List Operand → BuildM Operand
  | total, [] => return total
  | total, p :: rest => do
    let total ← Builder.binary .add total p ty
    sum ty total rest

/-- The dot product of two operands. -/
def dotProduct (a b : Operand) : OptionT BuildM Operand := do
  let ty := a.ty.elementTy
  let xs ← components a
  let ys ← components b
  let products ← (xs.zip ys).mapM fun (x, y) => (Builder.binary .mul x y ty : BuildM Operand)
  match products with
  | [] => failure
  | first :: rest => sum ty first rest

/-- The dot product. -/
def dot : Generator := fun _ args =>
  match args with
  | a :: b :: _ => dotProduct a b
  | _ => failure

/-- One component of a cross product. -/
def crossComponent (ty : Ty) (a b c d : Operand) : BuildM Operand := do
  let l ← Builder.binary .mul a b ty
  let r ← Builder.binary .mul c d ty
  Builder.binary .sub l r ty

/-- The cross product of two operands of three components. -/
def cross : Generator := fun _ args =>
  match args with
  | a :: b :: _ => do
    let ty := a.ty.elementTy
    let xs ← components a
    let ys ← components b
    match xs, ys with
    | [x0, x1, x2], [y0, y1, y2] => do
      let c0 ← crossComponent ty x1 y2 x2 y1
      let c1 ← crossComponent ty x2 y0 x0 y2
      let c2 ← crossComponent ty x0 y1 x1 y0
      Builder.pack [c0, c1, c2] a.ty
    | _, _ => failure
  | _ => failure

/-- The square of the length. -/
def lengthsq : Generator := fun _ args =>
  match args with
  | v :: _ => dotProduct v v
  | [] => failure

/-- The length. -/
def length : Generator := fun custom args => do
  let square ← lengthsq custom args
  Builder.callNative "sqrt" Native.sqrt [square] square.ty

/-- The operand, or one in its place if it is zero, as a divisor. -/
def divisor (v : Operand) : BuildM Operand := do
  let zero ← Builder.constantAs (.int32 0) v.ty
  let isZero ← Builder.binary .eq v zero .bool
  let result ← Builder.alloc v.ty
  Builder.assign result v
  let (_, body) ← Builder.inBlock do
    let one ← Builder.constantAs (.int32 1) v.ty
    Builder.assign result one
  Builder.emit (.branch isZero.reg body [])
  return result

/-- The vector of length one in the same direction; a zero vector stays zero. -/
def normalize : Generator := fun custom args =>
  match args with
  | v :: _ => do
    let len ← length custom args
    let d ← divisor len
    let d ← Builder.convert d v.ty
    Builder.binary .div v d v.ty
  | [] => failure

/-- The transposed matrix. -/
def transpose : Generator := fun _ args =>
  match args with
  | m :: _ =>
    match m.ty with
    | .matrix _ n => do
      let size := n.toNat
      let entries ← components m
      let transposed := (List.range (size * size)).filterMap fun i => entries[i % size * size + i / size]?
      Builder.pack transposed m.ty
    | _ => failure
  | [] => failure

/-- What the voxel provides. -/
def intrinsic (op : Intrinsic) : Generator := fun _ _ => Builder.intrinsic op

end Emitted

end Elementwise
