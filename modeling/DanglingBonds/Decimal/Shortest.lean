/-
# The fewest digits that read back

Among the decimals that binary64 rounds to a given number, those with the fewest digits are taken,
and of these the nearest. The text is positional: there is never an exponent.
-/
import DanglingBonds.Decimal.Fixed

namespace DanglingBonds.Decimal

/-- The decimals that round to a positive binary64 number: the open or closed interval from
`low / unit` to `high / unit`, around `value / unit`. -/
structure RoundingInterval where
  low : Nat
  value : Nat
  high : Nat
  unit : Nat
  closed : Bool

/-- The interval of `mantissa * 2 ^ exponent`. Just above a power of two the gap below is half the
gap above; the ends round to the number when its mantissa is even. -/
def RoundingInterval.ofParts (mantissa : Nat) (exponent : Int) : RoundingInterval :=
  let narrow := mantissa == Nat.pow 2 52 && exponent != -1074
  let (scale, unit) := fraction 1 (exponent - 2)
  { low := (4 * mantissa - if narrow then 1 else 2) * scale
    value := 4 * mantissa * scale
    high := (4 * mantissa + 2) * scale
    unit
    closed := mantissa % 2 == 0 }

/-- Whether `c * 10 ^ k` lies in the interval. -/
def RoundingInterval.holds (r : RoundingInterval) (c : Nat) (k : Int) : Bool :=
  let (n, d) :=
    if 0 ≤ k then (c * Nat.pow 10 k.natAbs * r.unit, 1)
    else (c * r.unit, Nat.pow 10 k.natAbs)
  if r.closed then r.low * d ≤ n && n ≤ r.high * d else r.low * d < n && n < r.high * d

/-- The multiple of `10 ^ k` in the interval that is nearest to the value, if there is one. -/
def RoundingInterval.nearest? (r : RoundingInterval) (k : Int) : Option Nat :=
  let (n, d) := scaleDown r.value r.unit k
  let c := n / d
  let nearer := if 2 * (n % d) < d then c else c + 1
  let farther := if 2 * (n % d) < d then c + 1 else c
  if r.holds nearer k then some nearer else if r.holds farther k then some farther else none

/-- Tries grids from coarse to fine, `fuel` of them, the first with unit `10 ^ k`. -/
def RoundingInterval.search (r : RoundingInterval) (k : Int) : Nat → Nat × Int
  | 0 => (0, 0)
  | fuel + 1 =>
    match r.nearest? k with
    | some c => (c, k)
    | none => r.search (k - 1) fuel

/-- Digits and power of ten of the shortest decimal for `mantissa * 2 ^ exponent`. Seventeen digits
always suffice. -/
def shortestParts (mantissa : Nat) (exponent : Int) : Nat × Int :=
  let (n, d) := fraction mantissa exponent
  (RoundingInterval.ofParts mantissa exponent).search (decimalExponent n d + 1) 18

/-- `c * 10 ^ k` written positionally. -/
def positional (c : Nat) (k : Int) : String :=
  if 0 ≤ k then natText (c * Nat.pow 10 k.natAbs) else pointed c k.natAbs

/-- The shortest text that reads back as `x`. -/
def shortest (x : Float) : String :=
  match Binary.ofFloat x with
  | .nan => "NaN"
  | .infinite s => infinityText s
  | .finite s 0 _ => signText s ++ "0"
  | .finite s m e =>
    let (c, k) := shortestParts m e
    signText s ++ positional c k

end DanglingBonds.Decimal
