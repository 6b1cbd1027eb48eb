import Elementwise.Digest.Blake3
import Elementwise.Tree.Term

/-!
# The digest of a program

A term is written as bytes that tell its shape, names, types and literals apart, and the bytes are
hashed. The names of nodes are not written, so the layout of the arena does not matter.
-/

namespace Elementwise

namespace Encoding

/-- Stands for a child that is absent. -/
def absent : UInt8 := 0x7F

/-- A number in four bytes, the lowest first. -/
def word32 (n : UInt32) : List UInt8 := Blake3.bytesOfWord n

/-- A number in eight bytes, the lowest first. -/
def word64 (n : UInt64) : List UInt8 := word32 n.toUInt32 ++ word32 (n >>> 32).toUInt32

/-- A length in four bytes. -/
def length (n : Nat) : List UInt8 := word32 (UInt32.ofNat n)

/-- A text: its length in bytes and its bytes. -/
def text (s : String) : List UInt8 := length s.utf8ByteSize ++ s.toUTF8.toList

/-- A truth value. -/
def flag (b : Bool) : UInt8 := if b then 1 else 0

/-- A scalar kind. -/
def kind (k : ScalarKind) : UInt8 := UInt8.ofNat k.rank

/-- A type. -/
def ty : Ty → List UInt8
  | .scalar k => [0x80, kind k]
  | .vector k n => [0x81, kind k, n]
  | .matrix k n => [0x82, kind k, n]
  | .string => [0x83]
  | .void => [0x84]

/-- The position of an operator among all operators. -/
def binaryOp (op : BinaryOp) : UInt8 := UInt8.ofNat (BinaryOp.all.idxOf op)

/-- The position of an operator among all operators. -/
def unaryOp (op : UnaryOp) : UInt8 := UInt8.ofNat (UnaryOp.all.idxOf op)

/-- A kind of loop. -/
def loopKind : LoopKind → UInt8
  | .for => 0
  | .while => 1
  | .doWhile => 2

/-- A jump. -/
def jump : Jump → UInt8
  | .return => 0
  | .break => 1
  | .continue => 2

/-- The content of a literal, the lowest byte of a number first. -/
def content : Literal → List UInt8
  | .bool b => [flag b]
  | .int16 n => [n.toUInt16.toUInt8, (n.toUInt16 >>> 8).toUInt8]
  | .int32 n => word32 n.toUInt32
  | .int64 n => word64 n.toUInt64
  | .float bits => word32 bits
  | .double bits => word64 bits
  | .string s => text s

/-- A literal: its type and its content. -/
def literal (l : Literal) : List UInt8 := ty l.ty ++ content l

mutual
/-- A term. -/
def term : Term → List UInt8
  | .missing _ => [absent]
  | .node _ content => node content

/-- A node: its tag, its content and its children. -/
def node : Node Term → List UInt8
  | .block statements => 0x01 :: length statements.length ++ terms statements
  | .conditional condition thenBranch elseBranch =>
    0x02 :: term condition ++ term thenBranch ++ term elseBranch
  | .loop kind start condition step body =>
    0x03 :: loopKind kind :: optional start ++ optional condition ++ optional step ++ term body
  | .jump word => [0x04, jump word]
  | .declare t name start => 0x05 :: ty t ++ term name ++ optional start
  | .binary op left right => 0x06 :: binaryOp op :: term left ++ term right
  | .unary op operand => 0x07 :: unaryOp op :: term operand
  | .crement op post target => 0x08 :: flag (op == .decrement) :: flag post :: term target
  | .assign target value compound =>
    0x09 :: (compound.map binaryOp).getD absent :: term target ++ term value
  | .cast t operand => 0x0A :: ty t ++ term operand
  | .call name args => 0x0B :: text name ++ length args.length ++ terms args
  | .pack items => 0x0C :: length items.length ++ terms items
  | .unpack array index column => 0x0D :: term array ++ term index ++ optional column
  | .value lit => 0x0E :: literal lit
  | .localName name => 0x0F :: text name
  | .field name t inferred writable => 0x10 :: text name ++ ty t ++ [flag inferred, flag writable]
  | .external name t => 0x11 :: text name ++ ty t

/-- Terms one after another. -/
def terms : List Term → List UInt8
  | [] => []
  | t :: rest => term t ++ terms rest

/-- A term that may be absent. -/
def optional : Option Term → List UInt8
  | none => [absent]
  | some t => term t
end

/-- The bytes of a program: the version of the encoding and its term. -/
def program (t : Term) : List UInt8 := 1 :: term t

end Encoding

/-- A hash of 32 bytes. -/
structure Digest where
  bytes : List UInt8
  deriving DecidableEq, Repr

namespace Digest

/-- Two hexadecimal digits. -/
def hexByte (b : UInt8) : String :=
  let digits := Text.hex b.toNat
  if b.toNat < 16 then "0" ++ digits else digits

/-- All bytes in hexadecimal. -/
def hex (d : Digest) : String := String.join (d.bytes.map hexByte)

/-- The characters of the short form. -/
def alphabet : List Char := "0123456789abcdefghjkmnpqrstuvwxyz".toList

/-- The first forty bits, five by five. -/
def short (d : Digest) : String :=
  let n := (d.bytes.take 5).foldl (fun n b => n * 256 + b.toNat) 0
  String.ofList ((List.range 8).map fun i => alphabet[n >>> (35 - 5 * i) % 32]?.getD '0')

/-- The text of a digest. -/
def text (d : Digest) : String := "#" ++ d.short

end Digest

/-- The digest of a program. -/
def Tree.digest (t : Tree) : Digest := ⟨Blake3.hash (Encoding.program t.program)⟩

end Elementwise
