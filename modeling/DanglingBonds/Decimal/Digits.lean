/-
# Decimal digits

Digits of natural numbers, and a decimal point put into a run of digits.
-/
namespace DanglingBonds.Decimal

/-- The decimal digits of `n`, most significant first. -/
def digits (n : Nat) : List Char :=
  Nat.toDigits 10 n

/-- `n` as a decimal numeral. -/
def natText (n : Nat) : String :=
  String.ofList (digits n)

/-- `n` as a decimal numeral, with a minus sign when it is negative. -/
def intText (n : Int) : String :=
  if n < 0 then "-" ++ natText n.natAbs else natText n.natAbs

/-- The digits `ds` with zeros in front up to `width` of them. -/
def padZeros (width : Nat) (ds : List Char) : List Char :=
  List.replicate (width - ds.length) '0' ++ ds

/-- `n / 10 ^ places` with exactly `places` digits behind the point. -/
def pointed (n places : Nat) : String :=
  let ds := padZeros (places + 1) (digits n)
  let whole := ds.take (ds.length - places)
  if places = 0 then String.ofList whole
  else String.ofList (whole ++ '.' :: ds.drop (ds.length - places))

end DanglingBonds.Decimal
