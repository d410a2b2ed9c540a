/-
# Reading decimals

The binary64 number nearest to a decimal, ties to the even mantissa, and the numerals that stand for
natural numbers, integers and binary64 numbers.
-/
import DanglingBonds.Decimal.Fixed

namespace DanglingBonds.Decimal

/-- The largest `k` with `2 ^ k ≤ n / d`, or one less. -/
def log2Below (n d : Nat) : Int :=
  (n.log2 : Int) - d.log2 - 1

/-- Bits of the nonnegative binary64 number nearest to `n / d`. -/
def nearestBits (n d : Nat) : UInt64 :=
  if n = 0 then 0
  else
    -- the unit of the last place: the mantissa has 53 bits, fewer near zero
    let unit (k : Int) : Nat :=
      if 0 ≤ k then roundDiv n (d * Nat.pow 2 k.natAbs)
      else roundDiv (n * Nat.pow 2 k.natAbs) d
    let k := max (log2Below n d - 52) (-1074)
    let k := if Nat.pow 2 53 ≤ unit k then k + 1 else k
    let m := unit k
    -- a mantissa that rounds up to the next power of two carries into the exponent
    let bits := m + (k + 1074).toNat * Nat.pow 2 52
    if 2047 * Nat.pow 2 52 ≤ bits then 0x7ff0000000000000 else bits.toUInt64

/-- `digits * 10 ^ exponent` with a sign, as the nearest binary64 number. Exponents far beyond the
range are cut off, so that no large power is computed. -/
def nearest (negative : Bool) (digits : Nat) (exponent : Int) : Float :=
  let width : Int := (Nat.toDigits 10 digits).length
  let bits :=
    if digits = 0 ∨ exponent + width < -400 then 0
    else if 400 < exponent + width then 0x7ff0000000000000
    else if 0 ≤ exponent then nearestBits (digits * Nat.pow 10 exponent.natAbs) 1
    else nearestBits digits (Nat.pow 10 exponent.natAbs)
  Float.ofBits (if negative then bits ||| 0x8000000000000000 else bits)

/-- The value of a digit. -/
def digitValue (c : Char) : Nat :=
  c.toNat - '0'.toNat

/-- The value of a run of digits. -/
def digitsValue (cs : List Char) : Nat :=
  cs.foldl (fun n c => 10 * n + digitValue c) 0

/-- A natural number: one or more ASCII digits. -/
def readNat? (cs : List Char) : Option Nat :=
  if cs.isEmpty || !cs.all Char.isDigit then none else some (digitsValue cs)

/-- A sign, if there is one, and what follows. -/
def splitSign : List Char → Bool × List Char
  | '-' :: cs => (true, cs)
  | '+' :: cs => (false, cs)
  | cs => (false, cs)

/-- An integer: digits with or without a sign. -/
def readInt? (cs : List Char) : Option Int :=
  let (negative, ds) := splitSign cs
  (readNat? ds).map fun n => if negative then -(n : Int) else n

/-- A decimal numeral in parts: sign, digits before and after the point, exponent. -/
structure Numeral where
  negative : Bool
  whole : List Char
  decimals : List Char
  /-- Whether there is a point. -/
  pointed : Bool
  exponent : Option Int

/-- Splits a numeral into its parts. Either run of digits may be empty. -/
def splitNumeral? (cs : List Char) : Option Numeral :=
  let (negative, cs) := splitSign cs
  let whole := cs.takeWhile Char.isDigit
  let rest := cs.dropWhile Char.isDigit
  let (pointed, decimals, rest) :=
    match rest with
    | '.' :: rest => (true, rest.takeWhile Char.isDigit, rest.dropWhile Char.isDigit)
    | _ => (false, [], rest)
  match rest with
  | [] => some ⟨negative, whole, decimals, pointed, none⟩
  | c :: rest =>
    if c = 'e' ∨ c = 'E' then
      (readInt? rest).map fun e => ⟨negative, whole, decimals, pointed, some e⟩
    else none

/-- The number nearest to a numeral. -/
def Numeral.value (n : Numeral) : Float :=
  nearest n.negative (digitsValue (n.whole ++ n.decimals)) (n.exponent.getD 0 - n.decimals.length)

/-- A number without digits: infinite or not a number. -/
def readSpecial? (cs : List Char) : Option Float :=
  let (negative, word) := splitSign cs
  match String.ofList (word.map Char.toLower) with
  | "inf" | "infinity" => some (if negative then -(1.0 / 0.0) else 1.0 / 0.0)
  | "nan" => some (0.0 / 0.0)
  | _ => none

/-- A binary64 number as users write it: a numeral with a digit before or after the point, or a word
for a number without digits, in either case of letters. -/
def readFloat? (s : String) : Option Float :=
  let cs := s.toList
  match readSpecial? cs with
  | some x => some x
  | none =>
    match splitNumeral? cs with
    | some n => if n.whole.isEmpty && n.decimals.isEmpty then none else some n.value
    | none => none

end DanglingBonds.Decimal
