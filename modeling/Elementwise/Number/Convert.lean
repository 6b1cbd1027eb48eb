import Elementwise.Number.Binary

/-!
# Conversions and exact functions of floating numbers

Widening, narrowing, integers to floats and back, and the functions whose result is exact or
chosen among the arguments: rounding to an integer, remainder, minimum, maximum, clamping.
-/

namespace Elementwise.Number

/-- What a 32-bit number stands for. -/
def unpack32 (x : Float32) : Unpacked := Format.binary32.unpack x.toBits.toNat

/-- What a 64-bit number stands for. -/
def unpack64 (x : Float) : Unpacked := Format.binary64.unpack x.toBits.toNat

/-- The nearest 32-bit number. -/
def pack32 (u : Unpacked) : Float32 := Float32.ofBits (UInt32.ofNat (Format.binary32.pack u))

/-- The nearest 64-bit number. -/
def pack64 (u : Unpacked) : Float := Float.ofBits (UInt64.ofNat (Format.binary64.pack u))

/-- The same number in 64 bits. -/
def widen (x : Float32) : Float := pack64 (unpack32 x)

/-- The nearest 32-bit number. -/
def narrow (x : Float) : Float32 := pack32 (unpack64 x)

/-- The nearest 64-bit number to an integer. -/
def floatOfInt (n : Int) : Float := pack64 (.ofInt n)

/-- The nearest 32-bit number to an integer. -/
def float32OfInt (n : Int) : Float32 := pack32 (.ofInt n)

/-- The integer part, limited to 16-bit integers. -/
def truncate16 (x : Float) : Int16 := Int16.ofInt ((unpack64 x).truncate (-32768) 32767)

/-- The integer part, limited to 32-bit integers. -/
def truncate32 (x : Float) : Int32 := Int32.ofInt ((unpack64 x).truncate (-2147483648) 2147483647)

/-- The integer part, limited to 64-bit integers. -/
def truncate64 (x : Float) : Int64 := Int64.ofInt ((unpack64 x).truncate (-9223372036854775808) 9223372036854775807)

/-- Round to an integer: `up negative twiceRest unit` tells whether the magnitude grows, where
`twiceRest / unit` is twice the part after the point. The sign is kept, also of a zero. -/
def roundBy (up : Bool → Nat → Nat → Bool) (x : Float) : Float :=
  match unpack64 x with
  | .finite negative m (.negSucc k) =>
    let places := k + 1
    let whole := m >>> places
    let grows := up negative (2 * (m - whole <<< places)) (1 <<< places)
    pack64 (.finite negative (if grows then whole + 1 else whole) 0)
  | _ => x

/-- The greatest integer not above. -/
def floor (x : Float) : Float := roundBy (fun negative twiceRest _ => negative && twiceRest != 0) x

/-- The least integer not below. -/
def ceiling (x : Float) : Float := roundBy (fun negative twiceRest _ => !negative && twiceRest != 0) x

/-- The nearest integer, a half going away from zero. -/
def round (x : Float) : Float := roundBy (fun _ twiceRest unit => unit ≤ twiceRest) x

/-- The exact remainder of the truncated quotient, with the sign of the dividend. -/
def remainder (x y : Float) : Float :=
  match unpack64 x, unpack64 y with
  | .finite _ _ _, .infinite _ => x
  | .finite negative m q, .finite _ n r =>
    if n = 0 then pack64 .nan else
    let last := min q r
    pack64 (.finite negative (m <<< (q - last).toNat % n <<< (r - last).toNat) last)
  | _, _ => pack64 .nan

/-- The smaller number; the other one if one is not a number; the second if neither is smaller. -/
def lesser (x y : Float) : Float := if y.isNaN || x < y then x else y

/-- The larger number; the other one if one is not a number; the second if neither is larger. -/
def greater (x y : Float) : Float := if y.isNaN || y < x then x else y

/-- Limit a number to `lo ≤ · ≤ hi`; there is no result unless `lo ≤ hi`. -/
def clamp? (x lo hi : Float) : Option Float :=
  if lo ≤ hi then some (if x < lo then lo else if hi < x then hi else x) else none

end Elementwise.Number
