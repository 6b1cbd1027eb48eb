/-!
# Binary interchange formats

A word of a binary interchange format stands for a sign, an integer significand and a power of
two. `Format.unpack` reads a word that way and `Format.pack` rounds such a number to the nearest
word, a tie going to the even significand. Every conversion between number kinds is one `unpack`
or one exact integer followed by one `pack`, so each of them rounds once.
-/

namespace Elementwise.Number

/-- A binary format: how many fraction bits and exponent bits its words have. -/
structure Format where
  fractionBits : Nat
  exponentBits : Nat

/-- The 32-bit format. -/
def Format.binary32 : Format := ⟨23, 8⟩

/-- The 64-bit format. -/
def Format.binary64 : Format := ⟨52, 11⟩

/-- What a word stands for; `finite` is the significand times two to the exponent. -/
inductive Unpacked where
  | nan
  | infinite (negative : Bool)
  | finite (negative : Bool) (significand : Nat) (exponent : Int)
  deriving DecidableEq, Repr

/-- The exponent of the last place of the smallest numbers of the format. -/
def Format.leastExponent (f : Format) : Int :=
  2 - (1 <<< (f.exponentBits - 1) : Nat) - f.fractionBits

/-- The word of positive infinity. -/
def Format.infinity (f : Format) : Nat :=
  (1 <<< f.exponentBits - 1) <<< f.fractionBits

/-- The word of the quiet number that is not a number. -/
def Format.quietNaN (f : Format) : Nat :=
  f.infinity + 1 <<< (f.fractionBits - 1)

/-- A word with the given sign. -/
def Format.signed (f : Format) (negative : Bool) (word : Nat) : Nat :=
  if negative then word + 1 <<< (f.fractionBits + f.exponentBits) else word

/-- The number that a word stands for. -/
def Format.unpack (f : Format) (word : Nat) : Unpacked :=
  let fraction := word % 1 <<< f.fractionBits
  let biased := word >>> f.fractionBits % 1 <<< f.exponentBits
  let negative := word >>> (f.fractionBits + f.exponentBits) % 2 == 1
  if biased = 1 <<< f.exponentBits - 1 then
    if fraction = 0 then .infinite negative else .nan
  else if biased = 0 then .finite negative fraction f.leastExponent
  else .finite negative (1 <<< f.fractionBits + fraction) (f.leastExponent + (biased - 1))

/-- The significand without its last `places` bits, rounded to the nearest, a tie to the even one. -/
def roundShift (m places : Nat) : Nat :=
  let quotient := m >>> places
  let twice := 2 * (m - quotient <<< places)
  let unit := 1 <<< places
  if twice < unit then quotient
  else if unit < twice then quotient + 1
  else quotient + quotient % 2

/-- The nearest word of the format, a tie going to the even significand. -/
def Format.pack (f : Format) : Unpacked → Nat
  | .nan => f.quietNaN
  | .infinite negative => f.signed negative f.infinity
  | .finite negative 0 _ => f.signed negative 0
  | .finite negative m q =>
    let least := f.leastExponent
    let last := max (q + Nat.log2 m - f.fractionBits) least
    let scaled := if last ≤ q then m <<< (q - last).toNat else roundShift m (last - q).toNat
    let word := scaled + (last - least).toNat <<< f.fractionBits
    f.signed negative (min word f.infinity)

/-- The nearest word to the quotient of two positive integers, a tie going to the even one. -/
def Format.packRatio (f : Format) (negative : Bool) (num den : Nat) : Nat :=
  let places := Nat.log2 den + f.fractionBits + 3 - Nat.log2 num
  let shifted := num <<< places
  let sticky := if shifted % den = 0 then 0 else 1
  f.pack (.finite negative (2 * (shifted / den) + sticky) (-(places + 1 : Nat)))

/-- The integer part of a number, toward zero, limited to `lo ≤ · ≤ hi`; not a number gives zero. -/
def Unpacked.truncate (lo hi : Int) : Unpacked → Int
  | .nan => 0
  | .infinite negative => if negative then lo else hi
  | .finite negative m q =>
    let magnitude := if 0 ≤ q then m <<< q.toNat else m >>> (-q).toNat
    max lo (min hi (if negative then -(magnitude : Int) else magnitude))

/-- An integer as an unpacked number. -/
def Unpacked.ofInt (n : Int) : Unpacked := .finite (n < 0) n.natAbs 0

end Elementwise.Number
