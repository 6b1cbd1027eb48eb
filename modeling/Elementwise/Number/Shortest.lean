import Elementwise.Number.Binary

/-!
# The shortest decimal that reads back

A finite number of a binary format is the nearest one for a whole interval of reals. `shortest`
gives the decimal with the fewest digits in that interval and, of two with equally few, the nearer
one to the number, the greater one when both are equally near.
-/

namespace Elementwise.Number

/-- A decimal number: `coefficient` times ten to the `exponent`. -/
structure Decimal where
  coefficient : Nat
  exponent : Int
  deriving DecidableEq, Repr

/-- Two factors that put multiples of ten to the `e` and of two to the `q` on one scale: the sign
of `c * decimal - x * binary` is that of the difference of the two numbers. -/
structure Scale where
  decimal : Nat
  binary : Nat

/-- The scale for multiples of ten to the `e` and two to the `q`. -/
def Scale.of (e q : Int) : Scale :=
  ⟨Nat.pow 10 e.toNat <<< (-q).toNat, Nat.pow 10 (-e).toNat <<< q.toNat⟩

/-- The reals that round to a number, its value between them, all in quarters of its last place. -/
structure Neighbourhood where
  low : Nat
  value : Nat
  high : Nat
  exponent : Int
  closed : Bool

/-- The neighbourhood of significand `m` at exponent `q`. The gap below a power of two is half as
wide, and the ends belong to an even significand. -/
def Format.neighbourhood (f : Format) (m : Nat) (q : Int) : Neighbourhood where
  low := 4 * m - if m = 1 <<< f.fractionBits ∧ f.leastExponent < q then 1 else 2
  value := 4 * m
  high := 4 * m + 2
  exponent := q - 2
  closed := m % 2 == 0

/-- Whether `c` times ten to the `e` lies in the neighbourhood. -/
def Neighbourhood.contains (n : Neighbourhood) (e : Int) (c : Nat) : Bool :=
  let s := Scale.of e n.exponent
  if n.closed then n.low * s.binary ≤ c * s.decimal && c * s.decimal ≤ n.high * s.binary
  else n.low * s.binary < c * s.decimal && c * s.decimal < n.high * s.binary

/-- The multiple of ten to the `e` in the neighbourhood that is nearest to the value. -/
def Neighbourhood.nearest? (n : Neighbourhood) (e : Int) : Option Nat :=
  let s := Scale.of e n.exponent
  let c := n.value * s.binary / s.decimal
  match n.contains e c, n.contains e (c + 1) with
  | true, true => some (if 2 * (n.value * s.binary) < (2 * c + 1) * s.decimal then c else c + 1)
  | true, false => some c
  | false, true => some (c + 1)
  | false, false => none

/-- The least `k` with the value below ten to the `k`, found from the position of its leading bit. -/
def Neighbourhood.magnitude (n : Neighbourhood) : Int :=
  let estimate := (Nat.log2 n.value + n.exponent) * 30103 / 100000
  let below (k : Int) : Bool :=
    let s := Scale.of k n.exponent
    n.value * s.binary < s.decimal
  if below estimate then estimate
  else if below (estimate + 1) then estimate + 1
  else estimate + 2

/-- Drop zeros at the end of a coefficient. -/
def Decimal.strip : Nat → Decimal → Decimal
  | 0, d => d
  | fuel + 1, d =>
    if d.coefficient % 10 = 0 ∧ d.coefficient ≠ 0 then
      strip fuel ⟨d.coefficient / 10, d.exponent + 1⟩
    else d

/-- The shortest decimal that reads back as significand `m` at exponent `q`. Seventeen digits are
enough for both formats. -/
def Format.shortest (f : Format) (m : Nat) (q : Int) : Decimal :=
  let n := f.neighbourhood m q
  let k := n.magnitude
  let found := (List.range 17).findSome? fun i =>
    let e := k - (i + 1 : Nat)
    (n.nearest? e).map fun c => Decimal.strip 17 ⟨c, e⟩
  found.getD ⟨m, q⟩

end Elementwise.Number
