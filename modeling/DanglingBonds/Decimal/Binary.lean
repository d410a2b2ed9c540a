/-
# The exact value of a binary64 number

A finite binary64 number is a sign and a magnitude `mantissa * 2 ^ exponent`. Every decimal text of
the library is computed from these integers.
-/
namespace DanglingBonds

/-- A binary64 number taken apart. -/
inductive Binary where
  | nan
  | infinite (negative : Bool)
  | finite (negative : Bool) (mantissa : Nat) (exponent : Int)
  deriving DecidableEq, Repr

namespace Binary

/-- The parts of the number with a given bit pattern. -/
def ofBits (bits : UInt64) : Binary :=
  let negative := bits >>> 63 == 1
  let biased := ((bits >>> 52) &&& 0x7ff).toNat
  let fraction := (bits &&& 0xfffffffffffff).toNat
  if biased = 2047 then if fraction = 0 then infinite negative else nan
  else if biased = 0 then finite negative fraction (-1074)
  else finite negative (fraction + Nat.pow 2 52) (biased - 1075)

/-- The parts of a number. -/
def ofFloat (x : Float) : Binary := ofBits x.toBits

end Binary

end DanglingBonds
