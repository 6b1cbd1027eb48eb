/-!
# BLAKE3

The unkeyed 256-bit hash. The message is cut into chunks of 1024 bytes, each compressed block by
block of 64 bytes; the chunk values are then joined two by two in a binary tree whose left subtrees
hold a power of two of chunks, and the root is marked.
-/

namespace Elementwise.Blake3

/-- The initial chaining value. -/
def initial : Array UInt32 :=
  #[0x6A09E667, 0xBB67AE85, 0x3C6EF372, 0xA54FF53A, 0x510E527F, 0x9B05688C, 0x1F83D9AB, 0x5BE0CD19]

/-- Marks the first block of a chunk. -/
def chunkStart : UInt32 := 1

/-- Marks the last block of a chunk. -/
def chunkEnd : UInt32 := 2

/-- Marks a block that joins two subtrees. -/
def joining : UInt32 := 4

/-- Marks the compression whose output is the hash. -/
def rootFlag : UInt32 := 8

/-- The order in which the next round takes the message words. -/
def permutation : List Nat := [2, 6, 3, 10, 7, 0, 4, 13, 1, 11, 12, 5, 9, 14, 15, 8]

/-- Turn a word to the right. -/
def rotate (x : UInt32) (n : UInt32) : UInt32 := (x >>> n) ||| (x <<< (32 - n))

/-- A word of a state or message. -/
def word (v : Array UInt32) (i : Nat) : UInt32 := v[i]?.getD 0

/-- Mix two message words into four words of the state. -/
def mix (v : Array UInt32) (a b c d : Nat) (x y : UInt32) : Array UInt32 :=
  let va := word v a + word v b + x
  let vd := rotate (word v d ^^^ va) 16
  let vc := word v c + vd
  let vb := rotate (word v b ^^^ vc) 12
  let va := va + vb + y
  let vd := rotate (vd ^^^ va) 8
  let vc := vc + vd
  let vb := rotate (vb ^^^ vc) 7
  (((v.setIfInBounds a va).setIfInBounds b vb).setIfInBounds c vc).setIfInBounds d vd

/-- The positions that the eight mixings of a round work on: columns, then diagonals. -/
def mixings : List (Nat × Nat × Nat × Nat) :=
  [(0, 4, 8, 12), (1, 5, 9, 13), (2, 6, 10, 14), (3, 7, 11, 15),
   (0, 5, 10, 15), (1, 6, 11, 12), (2, 7, 8, 13), (3, 4, 9, 14)]

/-- One round. -/
def round (v m : Array UInt32) : Array UInt32 :=
  mixings.zipIdx.foldl (fun v ((a, b, c, d), i) => mix v a b c d (word m (2 * i)) (word m (2 * i + 1))) v

/-- A number of rounds, the message permuted after each. -/
def rounds : Nat → Array UInt32 → Array UInt32 → Array UInt32
  | 0, v, _ => v
  | n + 1, v, m => rounds n (round v m) (permutation.map (word m)).toArray

/-- Compress one block into a chaining value. -/
def compress (chaining block : Array UInt32) (counter : UInt64) (length flags : UInt32) : Array UInt32 :=
  let v := chaining ++ initial.extract 0 4 ++
    #[counter.toUInt32, (counter >>> 32).toUInt32, length, flags]
  let v := rounds 7 v block
  ((List.range 8).map fun i => word v i ^^^ word v (i + 8)).toArray

/-- A word from four bytes, the lowest first; absent bytes are zero. -/
def wordOfBytes (bytes : Array UInt8) (i : Nat) : UInt32 :=
  let byte (k : Nat) : UInt32 := (bytes[i + k]?.getD 0).toUInt32
  byte 0 ||| (byte 1 <<< 8) ||| (byte 2 <<< 16) ||| (byte 3 <<< 24)

/-- The words of the block that starts at a position, padded with zeros. -/
def blockAt (bytes : Array UInt8) (start : Nat) : Array UInt32 :=
  ((List.range 16).map fun i => wordOfBytes bytes (start + 4 * i)).toArray

/-- The chaining value of one chunk of at most 1024 bytes; `last` is added to the flags of its last
block. -/
def chunk (bytes : Array UInt8) (counter : Nat) (last : UInt32) : Array UInt32 :=
  let blocks := max 1 ((bytes.size + 63) / 64)
  (List.range blocks).foldl (fun chaining i =>
    let length := min 64 (bytes.size - 64 * i)
    let first := if i = 0 then chunkStart else 0
    let final := if i + 1 = blocks then chunkEnd ||| last else 0
    compress chaining (blockAt bytes (64 * i)) (UInt64.ofNat counter) (UInt32.ofNat length)
      (first ||| final)) initial

/-- The number of chunks in the left subtree: the greatest power of two below the number of all. -/
def leftChunks (chunks : Nat) : Nat := 1 <<< Nat.log2 (chunks - 1)

/-- The chaining value of a message from a chunk number on, by at most `depth` halvings. -/
def subtree : Nat → Array UInt8 → Nat → UInt32 → Array UInt32
  | 0, bytes, counter, last => chunk bytes counter last
  | depth + 1, bytes, counter, last =>
    if bytes.size ≤ 1024 then chunk bytes counter last else
    let left := leftChunks ((bytes.size + 1023) / 1024)
    let first := subtree depth (bytes.extract 0 (1024 * left)) counter 0
    let second := subtree depth (bytes.extract (1024 * left) bytes.size) (counter + left) 0
    compress initial (first ++ second) 0 64 (joining ||| last)

/-- The bytes of a word, the lowest first. -/
def bytesOfWord (w : UInt32) : List UInt8 :=
  [w.toUInt8, (w >>> 8).toUInt8, (w >>> 16).toUInt8, (w >>> 24).toUInt8]

/-- The 32 bytes of the hash. -/
def hash (bytes : List UInt8) : List UInt8 :=
  let bytes := bytes.toArray
  (subtree (Nat.log2 bytes.size + 1) bytes 0 rootFlag).toList.flatMap bytesOfWord

end Elementwise.Blake3
