import Elementwise.Code.Instr
import Elementwise.Value.Convert

/-!
# Building code

A builder allocates registers and puts instructions into the innermost open block. Opening a block
starts a nested body; closing it gives the body back. The outermost block cannot be closed.
-/

namespace Elementwise

/-- Code under construction: the innermost open block, and the blocks around it, innermost first. -/
structure Builder where
  target : Target
  slots : Nat
  regs : Array Ty := #[]
  current : Array Instr := #[]
  enclosing : List (Array Instr) := []

/-- A step of building. -/
abbrev BuildM := StateM Builder

namespace Builder

/-- A new register. -/
def alloc (ty : Ty) : BuildM Operand := fun b => (⟨b.regs.size, ty⟩, { b with regs := b.regs.push ty })

/-- Put an instruction into the innermost open block. -/
def emit (i : Instr) : BuildM Unit := fun b => ((), { b with current := b.current.push i })

/-- Open a block. -/
def beginBlock : BuildM Unit := fun b =>
  ((), { b with current := #[], enclosing := b.current :: b.enclosing })

/-- Close the innermost block; the outermost one stays open and gives nothing. -/
def endBlock : BuildM (List Instr) := fun b =>
  match b.enclosing with
  | [] => ([], b)
  | outer :: rest => (b.current.toList, { b with current := outer, enclosing := rest })

/-- The instructions that an action puts into a block of its own, with the action's result. -/
def inBlock {α : Type} (action : BuildM α) : BuildM (α × List Instr) := do
  beginBlock
  let a ← action
  let body ← endBlock
  return (a, body)

/-- A constant in a new register. -/
def constant (v : Value) : BuildM Operand := do
  let dst ← alloc v.ty
  emit (.const dst.reg v)
  return dst

/-- A constant that is converted to a type beforehand. -/
def constantAs (v : Value) (ty : Ty) : BuildM Operand := constant (v.convert ty)

/-- A 32-bit integer constant. -/
def int (n : Int32) : BuildM Operand := constant (.int32 n)

/-- Overwrite a register with another. -/
def assign (dst src : Operand) : BuildM Unit := emit (.copy dst.reg src.reg)

/-- The operand converted to a type; itself if it has that type. -/
def convert (src : Operand) (goal : Ty) : BuildM Operand :=
  if src.ty = goal then return src else do
    let dst ← alloc goal
    emit (.convert dst.reg src.reg)
    return dst

/-- An operator on two operands of one type, with a result of the given type. -/
def binary (op : BinaryOp) (left right : Operand) (ty : Ty) : BuildM Operand := do
  let dst ← alloc ty
  emit (.binary dst.reg op left.reg right.reg)
  return dst

/-- An operator on one operand, with a result of the given type. -/
def unary (op : UnaryOp) (src : Operand) (ty : Ty) : BuildM Operand := do
  let dst ← alloc ty
  emit (.unary dst.reg op src.reg)
  return dst

/-- An array of the given type from its components. -/
def pack (items : List Operand) (ty : Ty) : BuildM Operand := do
  let dst ← alloc ty
  emit (.pack dst.reg (items.map Operand.reg))
  return dst

/-- A component of an array. -/
def extract (src index : Operand) : BuildM Operand := do
  let dst ← alloc src.ty.elementTy
  emit (.extract dst.reg src.reg index.reg)
  return dst

/-- A component of an array at a constant index. -/
def extractAt (src : Operand) (i : Nat) : BuildM Operand := do
  let index ← int (Int32.ofInt i)
  extract src index

/-- Replace a component of an array in its register. -/
def insert (target index value : Operand) : BuildM Unit :=
  emit (.insert target.reg target.reg index.reg value.reg)

/-- The value of a slot. -/
def readSlot (slot : Nat) (ty : Ty) : BuildM Operand := do
  let dst ← alloc ty
  emit (.read dst.reg slot)
  return dst

/-- Write a slot. -/
def writeSlot (slot : Nat) (src : Operand) : BuildM Unit := emit (.write slot src.reg)

/-- What the voxel provides. -/
def intrinsic (op : Intrinsic) : BuildM Operand := do
  let dst ← alloc op.ty
  emit (.intrinsic dst.reg op)
  return dst

/-- A call of a native body. -/
def callNative (name : String) (body : NativeBody) (args : List Operand) (ret : Ty) : BuildM Operand := do
  let dst ← alloc ret
  emit (.call dst.reg name body (args.map Operand.reg))
  return dst

/-- The outermost block. -/
def outermost (b : Builder) : Array Instr := b.enclosing.getLast?.getD b.current

/-- The finished code; blocks that are still open are dropped. -/
def finish (b : Builder) : Code := ⟨b.target, b.regs, b.slots, b.outermost.toList⟩

end Builder

end Elementwise
