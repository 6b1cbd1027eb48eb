import Elementwise.Number.Convert
import Elementwise.Number.Shortest

/-!
# Numbers as text

Floating numbers are written with the fewest digits that read back in their own width: positionally
with at least one digit after the point, or with an exponent when they are very small or very
large. Decimal text is read to the nearest number.
-/

namespace Elementwise.Number

/-- Which decimals are written positionally: the point may stand at most `leading` zeros before the
first digit and at most `places` digits after it. -/
structure Layout where
  leading : Nat
  places : Nat

/-- Numbers from one ten-thousandth up to ten to the sixteenth are written positionally. -/
def Layout.standard : Layout := ⟨3, 16⟩

/-- The text of a run of zeros. -/
def zeros (n : Nat) : String := String.ofList (List.replicate n '0')

/-- The text of a positive decimal whose coefficient has no zero at its end. -/
def Layout.write (layout : Layout) (d : Decimal) : String :=
  let digits := (Nat.repr d.coefficient).toList
  let point := d.exponent + digits.length
  if -(layout.leading : Int) ≤ point ∧ point ≤ layout.places then
    if point ≤ 0 then "0." ++ zeros (-point).toNat ++ String.ofList digits
    else
      let (whole, rest) := digits.splitAt point.toNat
      let padding := zeros (point.toNat - digits.length)
      String.ofList whole ++ padding ++ "." ++ (if rest.isEmpty then "0" else String.ofList rest)
  else
    let mantissa := match digits with
      | [] => ""
      | [digit] => digit.toString
      | digit :: rest => digit.toString ++ "." ++ String.ofList rest
    mantissa ++ "e" ++ toString (point - 1)

/-- The text of a number of the format. -/
def Format.text (f : Format) : Unpacked → String
  | .nan => "NaN"
  | .infinite negative => if negative then "-inf" else "inf"
  | .finite negative m q =>
    let magnitude := if m = 0 then "0.0" else Layout.standard.write (f.shortest m q)
    if negative then "-" ++ magnitude else magnitude

/-- The text of a 32-bit number. -/
def text32 (x : Float32) : String := Format.binary32.text (unpack32 x)

/-- The text of a 64-bit number. -/
def text64 (x : Float) : String := Format.binary64.text (unpack64 x)

/-- The value of a run of decimal digits, or nothing if another character stands in it. -/
def digits? (cs : List Char) : Option Nat :=
  cs.foldl (fun acc c => acc.bind fun n => if c.isDigit then some (10 * n + (c.toNat - 48)) else none) (some 0)

/-- Split off a sign; `true` is a minus. -/
def splitSign : List Char → Bool × List Char
  | '-' :: rest => (true, rest)
  | '+' :: rest => (false, rest)
  | cs => (false, cs)

/-- Read an integer: an optional sign and at least one digit. -/
def readInt? (text : String) : Option Int :=
  match splitSign text.toList with
  | (_, []) => none
  | (negative, cs) => (digits? cs).map fun n => if negative then -(n : Int) else n

/-- Read a 32-bit integer; there is none beyond the range. -/
def readInt32? (text : String) : Option Int32 :=
  (readInt? text).bind fun n =>
    if -2147483648 ≤ n ∧ n ≤ 2147483647 then some (Int32.ofInt n) else none

/-- The exponent after the mantissa: nothing, or `e`, an optional sign and at least one digit. -/
def readExponent? : List Char → Option Int
  | [] => some 0
  | c :: rest =>
    if c = 'e' ∨ c = 'E' then
      match splitSign rest with
      | (_, []) => none
      | (negative, cs) => (digits? cs).map fun n => if negative then -(n : Int) else n
    else none

/-- The nearest number of the format to a decimal. Decimals beyond ten to the thousandth are
decided by their magnitude alone. -/
def Format.ofDecimal (f : Format) (negative : Bool) (d : Decimal) : Nat :=
  let point := d.exponent + (Nat.repr d.coefficient).length
  if d.coefficient = 0 ∨ point < -1000 then f.signed negative 0
  else if 1000 < point then f.signed negative f.infinity
  else f.packRatio negative (d.coefficient * Nat.pow 10 d.exponent.toNat) (Nat.pow 10 (-d.exponent).toNat)

/-- Read a number: an optional sign, then `inf`, `infinity` or `nan` in any case, or digits with an
optional point and an optional exponent. -/
def Format.read? (f : Format) (text : String) : Option Nat :=
  let (negative, cs) := splitSign text.toList
  let word := String.ofList (cs.map Char.toLower)
  if word = "inf" ∨ word = "infinity" then some (f.signed negative f.infinity)
  else if word = "nan" then some f.quietNaN
  else
    let whole := cs.takeWhile Char.isDigit
    let rest := cs.dropWhile Char.isDigit
    let (fraction, tail) := match rest with
      | '.' :: rest => (rest.takeWhile Char.isDigit, rest.dropWhile Char.isDigit)
      | _ => ([], rest)
    if whole.isEmpty && fraction.isEmpty then none else do
      let exponent ← readExponent? tail
      let coefficient ← digits? (whole ++ fraction)
      some (f.ofDecimal negative ⟨coefficient, exponent - fraction.length⟩)

/-- Read a 32-bit number. -/
def readFloat32? (text : String) : Option Float32 :=
  (Format.binary32.read? text).map fun word => Float32.ofBits (UInt32.ofNat word)

end Elementwise.Number
