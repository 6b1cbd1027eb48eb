import Elementwise.Code.Instr

/-!
# Code as text

One line for every instruction, indented by nesting; each register that is written is shown with
its type.
-/

namespace Elementwise

namespace Instr

/-- One line at a depth. -/
def line (depth : Nat) (content : String) : String :=
  String.ofList (List.replicate (2 * depth) ' ') ++ content

/-- Registers separated by commas. -/
def regList (rs : List Reg) : String := String.intercalate ", " (rs.map Reg.text)

/-- The left side of an instruction that writes a register. -/
def target (types : Array Ty) (dst : Reg) : String :=
  dst.text ++ ": " ++ (types[dst]?.map Ty.text).getD "?" ++ " = "

mutual
/-- The lines of an instruction. -/
def lines (types : Array Ty) (depth : Nat) : Instr → List String
  | const dst value => [line depth (target types dst ++ "const " ++ value.text)]
  | copy dst src => [line depth (target types dst ++ src.text)]
  | binary dst op left right =>
    [line depth (target types dst ++ left.text ++ " " ++ op.symbol ++ " " ++ right.text)]
  | unary dst op src => [line depth (target types dst ++ op.symbol ++ src.text)]
  | convert dst src => [line depth (target types dst ++ "convert " ++ src.text)]
  | pack dst items => [line depth (target types dst ++ "pack [" ++ regList items ++ "]")]
  | extract dst src index => [line depth (target types dst ++ src.text ++ "[" ++ index.text ++ "]")]
  | insert dst src index value =>
    [line depth (target types dst ++ "insert " ++ src.text ++ "[" ++ index.text ++ "] = " ++ value.text)]
  | read dst slot => [line depth (target types dst ++ "read @" ++ Nat.repr slot)]
  | write slot src => [line depth ("write @" ++ Nat.repr slot ++ ", " ++ src.text)]
  | intrinsic dst op => [line depth (target types dst ++ op.name)]
  | call dst name _ args =>
    [line depth (target types dst ++ "call " ++ name ++ "(" ++ regList args ++ ")")]
  | branch condition thenBody elseBody =>
    let elseLines := linesAll types (depth + 1) elseBody
    [line depth ("if " ++ condition.text ++ " \x7b")] ++ linesAll types (depth + 1) thenBody ++
      (if elseBody.isEmpty then [] else line depth "\x7d else \x7b" :: elseLines) ++
      [line depth "\x7d"]
  | loop kind test condition body step =>
    let testLines := linesAll types (depth + 2) test
    let stepLines := linesAll types (depth + 2) step
    [line depth ("loop " ++ kind.name ++ " \x7b")] ++
      (match condition with
        | some r => line (depth + 1) ("cond " ++ r.text ++ ":") :: testLines
        | none => []) ++
      [line (depth + 1) "body:"] ++ linesAll types (depth + 2) body ++
      (if step.isEmpty then [] else line (depth + 1) "next:" :: stepLines) ++
      [line depth "\x7d"]
  | jump word => [line depth word.name]

/-- The lines of a body. -/
def linesAll (types : Array Ty) (depth : Nat) : List Instr → List String
  | [] => []
  | i :: rest => lines types depth i ++ linesAll types depth rest
end

end Instr

/-- The text of a program's code. -/
def Code.text (c : Code) : String :=
  let head := "fn " ++ c.target.name ++ "(slots: " ++ Nat.repr c.slots ++
    ", regs: " ++ Nat.repr c.regs.size ++ ")"
  String.intercalate "\n" (head :: Instr.linesAll c.regs 1 c.body)

end Elementwise
