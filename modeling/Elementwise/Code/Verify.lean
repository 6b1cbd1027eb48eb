import Elementwise.Code.Instr

/-!
# Verification

The checks that code passes before it runs: registers and slots exist, operand types agree where
the machine relies on it, and jumps out of a loop stand in the body of one.
-/

namespace Elementwise

/-- Why code is rejected. -/
inductive VerifyError where
  | badRegister (reg : Reg) (count : Nat)
  | typeMismatch (instr : String) (reg : Reg) (expected found : Ty)
  | strayJump (word : Jump)
  | badSlot (slot count : Nat)
  deriving DecidableEq, Repr

/-- The text of a rejection. -/
def VerifyError.message : VerifyError → String
  | badRegister reg count =>
    "register " ++ reg.text ++ " used but the function only has " ++ Nat.repr count ++ " registers"
  | typeMismatch instr reg expected found =>
    "instruction `" ++ instr ++ "` expects " ++ expected.text ++ ", register " ++ reg.text ++
      " holds " ++ found.text
  | strayJump word => "`" ++ word.name ++ "` outside of a loop"
  | badSlot slot count =>
    "attribute slot " ++ Nat.repr slot ++ " is outside the bound registry of " ++ Nat.repr count ++
      " entries"

/-- The registers and the number of slots that code is checked against. -/
structure Frame where
  regs : Array Ty
  slots : Nat

namespace Frame

/-- The type of a register, which must exist. -/
def ty (f : Frame) (r : Reg) : Except VerifyError Ty :=
  match f.regs[r]? with
  | some ty => .ok ty
  | none => .error (.badRegister r f.regs.size)

/-- A register must have a type. -/
def expect (f : Frame) (instr : String) (r : Reg) (expected : Ty) : Except VerifyError Unit := do
  let found ← f.ty r
  if found = expected then .ok () else .error (.typeMismatch instr r expected found)

/-- A slot must exist. -/
def slot (f : Frame) (slot : Nat) : Except VerifyError Unit :=
  if slot < f.slots then .ok () else .error (.badSlot slot f.slots)

/-- Every register must exist. -/
def registers (f : Frame) : List Reg → Except VerifyError Unit
  | [] => .ok ()
  | r :: rest => do
    let _ ← f.ty r
    f.registers rest

end Frame

namespace Instr

/-- What an instruction demands of the operands it names, apart from its bodies. -/
def checkOperands (f : Frame) (inLoop : Bool) : Instr → Except VerifyError Unit
  | copy dst src => do
    let ty ← f.ty dst
    f.expect "copy" src ty
  | binary _ _ left right => do
    let ty ← f.ty left
    f.expect "binary" right ty
  | extract _ _ index => f.expect "extract" index .int32
  | insert dst src index value => do
    let container ← f.ty dst
    f.expect "insert" src container
    f.expect "insert" index .int32
    f.expect "insert" value container.elementTy
  | read _ slot | write slot _ => f.slot slot
  | branch condition _ _ => f.expect "if" condition .bool
  | jump .break => if inLoop then .ok () else .error (.strayJump .break)
  | jump .continue => if inLoop then .ok () else .error (.strayJump .continue)
  | _ => .ok ()

mutual
/-- Check an instruction; `inLoop` tells whether it stands in the body of a loop. -/
def check (f : Frame) (inLoop : Bool) (i : Instr) : Except VerifyError Unit := do
  f.registers (i.dst?.toList ++ i.uses)
  i.checkOperands f inLoop
  match i with
  | branch _ thenBody elseBody =>
    checkAll f inLoop thenBody
    checkAll f inLoop elseBody
  | loop _ test condition body step =>
    checkAll f inLoop test
    match condition with
    | some r => f.expect "loop" r .bool
    | none => .ok ()
    checkAll f true body
    checkAll f inLoop step
  | _ => .ok ()

/-- Check a body. -/
def checkAll (f : Frame) (inLoop : Bool) : List Instr → Except VerifyError Unit
  | [] => .ok ()
  | i :: rest => do
    i.check f inLoop
    checkAll f inLoop rest
end

end Instr

/-- Check the code of a program. -/
def Code.verify (c : Code) : Except VerifyError Unit := Instr.checkAll ⟨c.regs, c.slots⟩ false c.body

/-- Code that passed verification and may run. -/
structure Program where
  code : Code
  verified : code.verify = .ok ()

/-- The program of code that passes verification. -/
def Code.compile (c : Code) : Except VerifyError Program :=
  match h : c.verify with
  | .ok () => .ok ⟨c, h⟩
  | .error e => .error e

/-- The summary text of a program. -/
def Program.summary (p : Program) : String :=
  "CompiledFunction \x7b target: " ++ p.code.target.tag ++ ", slots: " ++ Nat.repr p.code.slots ++
    ", registers: " ++ Nat.repr p.code.regs.size ++ ", instructions: " ++ Nat.repr p.code.length ++ " \x7d"

end Elementwise
