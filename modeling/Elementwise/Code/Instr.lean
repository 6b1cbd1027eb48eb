import Elementwise.Element.Basic

/-!
# Register code

Instructions over typed registers. Control flow is nested: branches and loops hold the instructions
of their bodies, so there are no labels. A register may be written many times.
-/

namespace Elementwise

/-- A register, by its number. -/
abbrev Reg := Nat

/-- The text of a register. -/
def Reg.text (r : Reg) : String := "r" ++ Nat.repr r

/-- A register with its type. -/
structure Operand where
  reg : Reg
  ty : Ty
  deriving DecidableEq, Repr

/-- What the voxel that is being processed provides. -/
inductive Intrinsic where
  | coordX
  | coordY
  | coordZ
  /-- The position of the centre of the voxel in the world. -/
  | worldPosition
  deriving DecidableEq, Repr

namespace Intrinsic

/-- All of them. -/
def all : List Intrinsic := [coordX, coordY, coordZ, worldPosition]

/-- The type of what is provided. -/
def ty : Intrinsic → Ty
  | worldPosition => .vec3f
  | _ => .int32

/-- How it is written. -/
def name : Intrinsic → String
  | coordX => "coord.x"
  | coordY => "coord.y"
  | coordZ => "coord.z"
  | worldPosition => "voxel.pws"

/-- The value at a coordinate. -/
def value (op : Intrinsic) (c : Coord) : Value :=
  match op with
  | coordX => .int32 c.x
  | coordY => .int32 c.y
  | coordZ => .int32 c.z
  | worldPosition =>
    .vec3f (Number.float32OfInt c.x.toInt) (Number.float32OfInt c.y.toInt) (Number.float32OfInt c.z.toInt)

end Intrinsic

/-- What a native body answers: a value, and the texts it printed. -/
structure NativeResult where
  value : Value
  printed : List String := []

/-- A function of the host. It has no answer where it fails. -/
abbrev NativeBody := List Value → Option NativeResult

/-- One instruction. -/
inductive Instr where
  | const (dst : Reg) (value : Value)
  | copy (dst src : Reg)
  | binary (dst : Reg) (op : BinaryOp) (left right : Reg)
  | unary (dst : Reg) (op : UnaryOp) (src : Reg)
  /-- `src` converted to the type of `dst`. -/
  | convert (dst src : Reg)
  | pack (dst : Reg) (items : List Reg)
  /-- A component of `src`; zero beyond the last. -/
  | extract (dst src index : Reg)
  /-- `src` with one component replaced; `src` itself beyond the last. -/
  | insert (dst src index value : Reg)
  | read (dst : Reg) (slot : Nat)
  | write (slot : Nat) (src : Reg)
  | intrinsic (dst : Reg) (op : Intrinsic)
  | call (dst : Reg) (name : String) (body : NativeBody) (args : List Reg)
  | branch (condition : Reg) (thenBody elseBody : List Instr)
  /-- `test` computes `condition` before every pass, except the first one of a do-while loop;
  without a condition the loop runs until a jump leaves it. -/
  | loop (kind : LoopKind) (test : List Instr) (condition : Option Reg) (body step : List Instr)
  | jump (word : Jump)

namespace Instr

/-- The register that an instruction writes. -/
def dst? : Instr → Option Reg
  | const dst _ | copy dst _ | binary dst _ _ _ | unary dst _ _ | convert dst _ | pack dst _
  | extract dst _ _ | insert dst _ _ _ | read dst _ | intrinsic dst _ | call dst _ _ _ => some dst
  | write _ _ | branch _ _ _ | loop _ _ _ _ _ | jump _ => none

/-- The registers that an instruction itself reads, apart from its bodies. -/
def uses : Instr → List Reg
  | copy _ src | unary _ _ src | convert _ src | write _ src => [src]
  | binary _ _ left right => [left, right]
  | pack _ items => items
  | extract _ src index => [src, index]
  | insert _ src index value => [src, index, value]
  | call _ _ _ args => args
  | branch condition _ _ => [condition]
  | loop _ _ condition _ _ => condition.toList
  | const _ _ | read _ _ | intrinsic _ _ | jump _ => []

/-- The bodies inside an instruction. -/
def bodies : Instr → List (List Instr)
  | branch _ thenBody elseBody => [thenBody, elseBody]
  | loop _ test _ body step => [test, body, step]
  | _ => []

/-- Whether an instruction does more than write its register. -/
def hasEffects : Instr → Bool
  | write _ _ | call _ _ _ _ | branch _ _ _ | loop _ _ _ _ _ | jump _ => true
  | _ => false

/-- Whether control never passes to the next instruction. -/
def isJump : Instr → Bool
  | jump _ => true
  | _ => false

mutual
/-- The number of instructions in an instruction, itself included. -/
def length : Instr → Nat
  | branch _ thenBody elseBody => 1 + (lengthAll thenBody + lengthAll elseBody)
  | loop _ test _ body step => 1 + (lengthAll test + lengthAll body + lengthAll step)
  | _ => 1

/-- The number of instructions in a body, nested ones included. -/
def lengthAll : List Instr → Nat
  | [] => 0
  | i :: rest => i.length + lengthAll rest
end

end Instr

/-- The code of one program: the types of its registers, the number of slots it may touch, and its
instructions. -/
structure Code where
  target : Target
  regs : Array Ty
  slots : Nat
  body : List Instr

namespace Code

/-- The number of instructions, nested ones included. -/
def length (c : Code) : Nat := Instr.lengthAll c.body

end Code

end Elementwise
