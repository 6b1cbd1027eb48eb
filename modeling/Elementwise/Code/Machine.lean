import Elementwise.Code.Verify
import Elementwise.Value.Convert
import Elementwise.Value.Operator

/-!
# The machine

Runs code on one element. A run ends with how control leaves it, or fails inside a native body, or
uses up its fuel: every pass through a loop takes one unit. The machine keeps the native calls it
made, so that what a run shows to the outside is part of its result.
-/

namespace Elementwise

/-- One call of a native body that was made. -/
structure NativeCall where
  name : String
  args : List Value
  printed : List String

/-- The registers, the element, and the native calls made so far, the last one first. -/
structure Machine where
  regs : Array Value
  state : ElementState
  calls : List NativeCall := []

/-- How control leaves an instruction. -/
inductive Flow where
  | next
  | jump (word : Jump)
  deriving DecidableEq, Repr

/-- Why a run fails. -/
inductive Fault where
  | register (reg : Reg)
  | native (name : String)
  deriving DecidableEq, Repr

/-- The result of a run. -/
inductive Outcome (α : Type) where
  | done (result : α) (machine : Machine)
  | failed (fault : Fault) (machine : Machine)
  | exhausted

namespace Machine

/-- The values of registers, or the first register that does not exist. -/
def fetch (m : Machine) : List Reg → Except Reg (List Value)
  | [] => .ok []
  | r :: rest =>
    match m.regs[r]?, m.fetch rest with
    | none, _ => .error r
    | some _, .error e => .error e
    | some v, .ok vs => .ok (v :: vs)

/-- Write a register and go on. -/
@[inline] def set (m : Machine) (r : Reg) (v : Value) : Outcome Flow :=
  if r < m.regs.size then .done .next { m with regs := m.regs.setIfInBounds r v }
  else .failed (.register r) m

/-- Go on with the value of a register. -/
@[inline] def withReg (m : Machine) (r : Reg) (k : Value → Outcome Flow) : Outcome Flow :=
  match m.regs[r]? with
  | some v => k v
  | none => .failed (.register r) m

/-- Go on with the values of registers. -/
@[inline] def withRegs (m : Machine) (rs : List Reg) (k : List Value → Outcome Flow) : Outcome Flow :=
  match m.fetch rs with
  | .ok vs => k vs
  | .error r => .failed (.register r) m

/-- Call a native body and keep the call. -/
def callNative (m : Machine) (dst : Reg) (name : String) (body : NativeBody) (args : List Value) :
    Outcome Flow :=
  match body args with
  | some result => { m with calls := ⟨name, args, result.printed⟩ :: m.calls }.set dst result.value
  | none => .failed (.native name) { m with calls := ⟨name, args, []⟩ :: m.calls }

/-- The texts printed so far, in order. -/
def printed (m : Machine) : List String := m.calls.reverse.flatMap NativeCall.printed

end Machine

/-- The passes of a loop. `test` tells whether to make another pass, or that control returns;
`first` skips it once. Jumps inside `test` and `step` other than a return have no effect. -/
def runLoop (test : Machine → Outcome (Option Bool)) (body step : Machine → Outcome Flow) :
    Nat → Bool → Machine → Outcome Flow
  | 0, _, _ => .exhausted
  | fuel + 1, first, m =>
    match if first then .done (some true) m else test m with
    | .exhausted => .exhausted
    | .failed fault m => .failed fault m
    | .done none m => .done (.jump .return) m
    | .done (some false) m => .done .next m
    | .done (some true) m =>
      match body m with
      | .exhausted => .exhausted
      | .failed fault m => .failed fault m
      | .done (.jump .break) m => .done .next m
      | .done (.jump .return) m => .done (.jump .return) m
      | .done _ m =>
        match step m with
        | .exhausted => .exhausted
        | .failed fault m => .failed fault m
        | .done (.jump .return) m => .done (.jump .return) m
        | .done _ m => runLoop test body step fuel false m

/-- The test of a loop: run its instructions, then look at its condition. -/
def runTest (test : Machine → Outcome Flow) (condition : Option Reg) (m : Machine) : Outcome (Option Bool) :=
  match test m with
  | .exhausted => .exhausted
  | .failed fault m => .failed fault m
  | .done (.jump .return) m => .done none m
  | .done _ m =>
    match condition with
    | none => .done (some true) m
    | some r =>
      match m.regs[r]? with
      | some v => .done (some v.truthy) m
      | none => .failed (.register r) m

namespace Instr

mutual
/-- Run one instruction. -/
def run (types : Array Ty) (fuel : Nat) : Instr → Machine → Outcome Flow
  | const dst value, m => m.set dst value
  | copy dst src, m => m.withReg src fun v => m.set dst v
  | binary dst op left right, m =>
    m.withReg left fun l => m.withReg right fun r => m.set dst (Value.binary op l r)
  | unary dst op src, m => m.withReg src fun v => m.set dst (Value.unary op v)
  | convert dst src, m => m.withReg src fun v => m.set dst (v.convert (types[dst]?.getD .void))
  | pack dst items, m =>
    m.withRegs items fun vs => m.set dst (Value.pack vs (types[dst]?.getD .void))
  | extract dst src index, m =>
    m.withReg index fun i => m.withReg src fun v =>
      m.set dst ((v.extractAt? i).getD (Value.zero (types[dst]?.getD .void)))
  | insert dst src index value, m =>
    m.withReg index fun i => m.withReg src fun v => m.withReg value fun component =>
      m.set dst (v.insertAt i component)
  | read dst slot, m =>
    m.set dst ((m.state.read? slot).getD (Value.zero (types[dst]?.getD .void)))
  | write slot src, m =>
    m.withReg src fun v => .done .next { m with state := m.state.write slot v }
  | intrinsic dst op, m => m.set dst (op.value (m.state.coord.getD ⟨0, 0, 0⟩))
  | call dst name body args, m => m.withRegs args fun vs => m.callNative dst name body vs
  | branch condition thenBody elseBody, m =>
    match m.regs[condition]? with
    | none => .failed (.register condition) m
    | some v => if v.truthy then runAll types fuel thenBody m else runAll types fuel elseBody m
  | loop kind test condition body step, m =>
    runLoop (runTest (runAll types fuel test) condition) (runAll types fuel body)
      (runAll types fuel step) fuel (kind == .doWhile) m
  | jump word, m => .done (.jump word) m

/-- Run instructions one after another, up to the first jump. -/
def runAll (types : Array Ty) (fuel : Nat) : List Instr → Machine → Outcome Flow
  | [], m => .done .next m
  | i :: rest, m =>
    match i.run types fuel m with
    | .done .next m => runAll types fuel rest m
    | other => other
end

end Instr

namespace Program

/-- The machine at the start: every register holds the zero of its type. -/
def start (p : Program) (state : ElementState) : Machine :=
  { regs := p.code.regs.map Value.zero, state }

/-- Run a program once on an element. -/
def run (p : Program) (fuel : Nat) (state : ElementState) : Outcome Flow :=
  Instr.runAll p.code.regs fuel p.code.body (p.start state)

end Program

end Elementwise
