/-
# A fixed number of digits

Numbers written with a given number of decimal places, positionally or with a power of ten. The
digits are those of the exact value, rounded once, ties to the even digit.
-/
import DanglingBonds.Decimal.Binary
import DanglingBonds.Decimal.Digits

namespace DanglingBonds.Decimal

/-- `n / d` rounded to the nearest integer, ties to the even one. -/
def roundDiv (n d : Nat) : Nat :=
  let q := n / d
  let r := n % d
  if 2 * r < d then q else if d < 2 * r then q + 1 else q + q % 2

/-- A magnitude `mantissa * 2 ^ exponent` as a fraction. -/
def fraction (mantissa : Nat) (exponent : Int) : Nat × Nat :=
  if 0 ≤ exponent then (mantissa * Nat.pow 2 exponent.natAbs, 1)
  else (mantissa, Nat.pow 2 exponent.natAbs)

/-- The sign in front of a number. -/
def signText (negative : Bool) : String :=
  if negative then "-" else ""

/-- The texts of the values that have no digits. -/
def infinityText (negative : Bool) : String :=
  signText negative ++ "inf"

/-- `x` with `places` digits behind the point. -/
def fixed (places : Nat) (x : Float) : String :=
  match Binary.ofFloat x with
  | .nan => "NaN"
  | .infinite s => infinityText s
  | .finite s m e =>
    let (n, d) := fraction m e
    signText s ++ pointed (roundDiv (n * Nat.pow 10 places) d) places

/-- The greatest `k` with `10 ^ k ≤ n / d`, for `n / d` at least one. -/
def log10Floor (n d : Nat) : Nat :=
  (digits (n / d)).length - 1

/-- The decimal exponent of a positive fraction: the `k` with `10 ^ k ≤ n / d < 10 ^ (k + 1)`. -/
def decimalExponent (n d : Nat) : Int :=
  if d ≤ n then log10Floor n d
  else
    -- `n / d < 1`: the exponent of the reciprocal, one less unless that is a power of ten
    let k := log10Floor d n
    if n * Nat.pow 10 k = d then -k else -(k + 1)

/-- `n / d / 10 ^ k`, as a fraction. -/
def scaleDown (n d : Nat) (k : Int) : Nat × Nat :=
  if 0 ≤ k then (n, d * Nat.pow 10 k.natAbs) else (n * Nat.pow 10 k.natAbs, d)

/-- `x` as one digit, `places` more behind the point, and a power of ten. -/
def scientific (places : Nat) (x : Float) : String :=
  match Binary.ofFloat x with
  | .nan => "NaN"
  | .infinite s => infinityText s
  | .finite s 0 _ => signText s ++ pointed 0 places ++ "e0"
  | .finite s m e =>
    let (n, d) := fraction m e
    let k := decimalExponent n d
    let (n, d) := scaleDown n d (k - places)
    let r := roundDiv n d
    -- rounding up may reach the next power of ten
    let (r, k) :=
      if r = Nat.pow 10 (places + 1) then (Nat.pow 10 places, k + 1) else (r, k)
    signText s ++ pointed r places ++ "e" ++ intText k

end DanglingBonds.Decimal
