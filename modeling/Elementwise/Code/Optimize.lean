import Elementwise.Code.Instr
import Elementwise.Value.Convert
import Elementwise.Value.Operator

/-!
# Optimisation

Constant folding; at the second level also resolving branches on constants, dropping what follows
a jump, and dropping instructions whose only effect is a register that nothing reads. Every pass
tells whether it found anything, and the passes are repeated until none of them does. A pass that
finds something lowers the weight of the code, which bounds the repetition.
-/

namespace Elementwise

/-- How much is optimised. -/
inductive OptLevel where
  | none
  | fold
  | full
  deriving DecidableEq, Repr

/-- Registers with a known constant value. -/
abbrev Constants := List (Reg × Value)

/-- What a pass leaves, and whether it found anything to change. -/
structure Passed (α : Type) where
  result : α
  found : Bool

instance : Monad Passed where
  pure a := ⟨a, false⟩
  bind x f := ⟨(f x.result).result, (f x.result).found || x.found⟩

/-- Note that something is changed. -/
def Passed.change : Passed Unit := ⟨(), true⟩

namespace Instr

mutual
/-- The registers that an instruction and its bodies write, once for each time. -/
def defs : Instr → List Reg
  | branch _ thenBody elseBody => defsAll thenBody ++ defsAll elseBody
  | loop _ test _ body step => defsAll test ++ defsAll body ++ defsAll step
  | i => i.dst?.toList

/-- The registers that a body writes. -/
def defsAll : List Instr → List Reg
  | [] => []
  | i :: rest => i.defs ++ defsAll rest
end

mutual
/-- The registers that an instruction and its bodies read. -/
def reads : Instr → List Reg
  | branch condition thenBody elseBody => condition :: (readsAll thenBody ++ readsAll elseBody)
  | loop _ test condition body step =>
    condition.toList ++ (readsAll test ++ readsAll body ++ readsAll step)
  | i => i.uses

/-- The registers that a body reads. -/
def readsAll : List Instr → List Reg
  | [] => []
  | i :: rest => i.reads ++ readsAll rest
end

mutual
/-- The constants that an instruction and its bodies put into registers. -/
def consts : Instr → Constants
  | const dst value => [(dst, value)]
  | branch _ thenBody elseBody => constsAll thenBody ++ constsAll elseBody
  | loop _ test _ body step => constsAll test ++ constsAll body ++ constsAll step
  | _ => []

/-- The constants that a body puts into registers. -/
def constsAll : List Instr → Constants
  | [] => []
  | i :: rest => i.consts ++ constsAll rest
end

/-- The value of an instruction whose inputs are all known. -/
def evaluate? (types : Array Ty) (known : Constants) : Instr → Option Value
  | copy _ src => known.lookup src
  | binary _ op left right => do
    let l ← known.lookup left
    let r ← known.lookup right
    some (Value.binary op l r)
  | unary _ op src => do
    let v ← known.lookup src
    some (Value.unary op v)
  | convert dst src => do
    let v ← known.lookup src
    let ty ← types[dst]?
    v.convert? ty
  | pack dst items => do
    let values ← items.mapM fun r => known.lookup r
    let ty ← types[dst]?
    some (Value.pack values ty)
  | extract dst src index => do
    let i ← known.lookup index
    let v ← known.lookup src
    match v.extractAt? i with
    | some component => some component
    | none => do
      let ty ← types[dst]?
      some (Value.zero ty)
  | _ => none

/-- The constant in place of an instruction whose value is known. -/
def foldHead (types : Array Ty) (known : Constants) (i : Instr) : Passed Instr :=
  match i.evaluate? types known, i.dst? with
  | some v, some dst => ⟨const dst v, true⟩
  | _, _ => ⟨i, false⟩

mutual
/-- Put constants in place of instructions whose value is known, inside an instruction too. -/
def fold (types : Array Ty) (known : Constants) : Instr → Passed Instr
  | branch condition thenBody elseBody =>
    return branch condition (← foldAll types known thenBody) (← foldAll types known elseBody)
  | loop kind test condition body step =>
    return loop kind (← foldAll types known test) condition (← foldAll types known body) (← foldAll types known step)
  | i => i.foldHead types known

/-- Fold every instruction of a body. -/
def foldAll (types : Array Ty) (known : Constants) : List Instr → Passed (List Instr)
  | [] => return []
  | i :: rest => return (← i.fold types known) :: (← foldAll types known rest)
end

mutual
/-- What takes the place of an instruction when branches on constants are resolved. -/
def resolve (known : Constants) : Instr → Passed (List Instr)
  | branch condition thenBody elseBody => do
    let thenBody ← resolveAll known thenBody
    let elseBody ← resolveAll known elseBody
    match known.lookup condition with
    | some v => ⟨if v.truthy then thenBody else elseBody, true⟩
    | none => return [branch condition thenBody elseBody]
  | loop kind test condition body step =>
    return [loop kind (← resolveAll known test) condition (← resolveAll known body) (← resolveAll known step)]
  | i => return [i]

/-- Resolve the branches of a body. -/
def resolveAll (known : Constants) : List Instr → Passed (List Instr)
  | [] => return []
  | i :: rest => return (← i.resolve known) ++ (← resolveAll known rest)
end

mutual
/-- Drop what follows jumps in the bodies of an instruction. -/
def prune : Instr → Passed Instr
  | branch condition thenBody elseBody => return branch condition (← pruneAll thenBody) (← pruneAll elseBody)
  | loop kind test condition body step =>
    return loop kind (← pruneAll test) condition (← pruneAll body) (← pruneAll step)
  | i => return i

/-- Drop what follows the first jump of a body. -/
def pruneAll : List Instr → Passed (List Instr)
  | [] => return []
  | i :: rest => if i.isJump then ⟨[i], !rest.isEmpty⟩ else return (← i.prune) :: (← pruneAll rest)
end

/-- Whether an instruction matters: it has an effect, or its register is read. -/
def isLive (used : Reg → Bool) (i : Instr) : Bool := i.hasEffects || (i.dst?.map used).getD false

mutual
/-- Drop instructions that do not matter from the bodies of an instruction. -/
def sweep (used : Reg → Bool) : Instr → Passed Instr
  | branch condition thenBody elseBody =>
    return branch condition (← sweepAll used thenBody) (← sweepAll used elseBody)
  | loop kind test condition body step =>
    return loop kind (← sweepAll used test) condition (← sweepAll used body) (← sweepAll used step)
  | i => return i

/-- Drop instructions that do not matter from a body. -/
def sweepAll (used : Reg → Bool) : List Instr → Passed (List Instr)
  | [] => return []
  | i :: rest =>
    if i.isLive used then return (← i.sweep used) :: (← sweepAll used rest)
    else do
      Passed.change
      sweepAll used rest
end

mutual
/-- The weight of an instruction: one for a constant, two for any other, and its bodies. -/
def weight : Instr → Nat
  | const _ _ => 1
  | branch _ thenBody elseBody => 2 + (weightAll thenBody + weightAll elseBody)
  | loop _ test _ body step => 2 + (weightAll test + weightAll body + weightAll step)
  | _ => 2

/-- The weight of a body. -/
def weightAll : List Instr → Nat
  | [] => 0
  | i :: rest => i.weight + weightAll rest
end

end Instr

namespace Code

/-- The registers that are written exactly once, by a constant, with their values. -/
def constants (c : Code) : Constants :=
  let defs := Instr.defsAll c.body
  (Instr.constsAll c.body).filter fun entry => defs.count entry.1 == 1

/-- Constant folding. Code without any known constant stays as it is, an empty array in it too. -/
def foldConstants (c : Code) : Passed Code :=
  if c.constants.isEmpty then return c
  else return { c with body := ← Instr.foldAll c.regs c.constants c.body }

/-- Branches on constants give way to the branch that is taken. -/
def resolveBranches (c : Code) : Passed Code :=
  return { c with body := ← Instr.resolveAll c.constants c.body }

/-- What follows a jump is dropped. -/
def removeUnreachable (c : Code) : Passed Code := return { c with body := ← Instr.pruneAll c.body }

/-- Instructions that only write a register that nothing reads are dropped. -/
def removeDead (c : Code) : Passed Code :=
  let reads := Instr.readsAll c.body
  return { c with body := ← Instr.sweepAll (fun r => reads.contains r) c.body }

/-- The passes of a level, in order. -/
def passes : OptLevel → List (Code → Passed Code)
  | .none => []
  | .fold => [foldConstants]
  | .full => [foldConstants, resolveBranches, removeUnreachable, removeDead]

/-- One round of all passes of a level. -/
def optimizeOnce (level : OptLevel) (c : Code) : Passed Code := (passes level).foldlM (fun c pass => pass c) c

/-- The weight of the code. -/
def weight (c : Code) : Nat := Instr.weightAll c.body

/-- Rounds of passes as long as they find something, at most the given number. -/
def optimizeWithin (level : OptLevel) : Nat → Code → Code
  | 0, c => c
  | fuel + 1, c =>
    let round := c.optimizeOnce level
    if round.found then optimizeWithin level fuel round.result else round.result

/-- Optimise until no pass finds anything. -/
def optimize (level : OptLevel) (c : Code) : Code := c.optimizeWithin level (c.weight + 1)

end Code

end Elementwise
