/-
# Charge states

A dangling bond is negative, neutral or positive. The sign of a state counts elementary charges and
its digit, one more than the sign, is its place in a charge index.
-/
import DanglingBonds.Scalar

namespace DanglingBonds

/-- Charge state of a dangling bond. -/
inductive Charge where
  | negative
  | neutral
  | positive
  deriving DecidableEq, Repr, Inhabited

namespace Charge

/-- Charge in units of the elementary charge. -/
def sign : Charge → Int
  | negative => -1
  | neutral => 0
  | positive => 1

/-- The state with a sign. -/
def ofSign? : Int → Option Charge
  | -1 => some negative
  | 0 => some neutral
  | 1 => some positive
  | _ => none

/-- Digit of the state in a charge index: its sign plus one. -/
def digit : Charge → Nat
  | negative => 0
  | neutral => 1
  | positive => 2

/-- The state with a digit. -/
def ofDigit? : Nat → Option Charge
  | 0 => some negative
  | 1 => some neutral
  | 2 => some positive
  | _ => none

/-- The sign as a scalar. -/
def value {α : Type} [Scalar α] : Charge → α
  | negative => -1
  | neutral => 0
  | positive => 1

/-- The character of a state in texts. -/
def symbol : Charge → Char
  | negative => '-'
  | neutral => '0'
  | positive => '+'

end Charge

/-- The symbols of a list of charges, in order. -/
def chargeText (cs : List Charge) : String :=
  String.ofList (cs.map Charge.symbol)

/-- The lexicographic order of charge lists, negative before neutral before positive. -/
def chargesBefore : List Charge → List Charge → Bool
  | _, [] => false
  | [], _ :: _ => true
  | a :: as, b :: bs => a.digit < b.digit || (a.digit == b.digit && chargesBefore as bs)

end DanglingBonds
