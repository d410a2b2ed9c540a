/-
# Scalars

Lengths, potentials and energies are written over one class of scalars. Binary64 numbers are the
scalars a program runs with; an exact field of numbers is what statements about the physics use.
The class fixes the operations and no law, so one definition serves both.
-/
namespace DanglingBonds

/-- The operations on lengths, potentials and energies. Literals come from `OfScientific`. -/
class Scalar (α : Type) where
  [toZero : Zero α]
  [toOne : One α]
  [toAdd : Add α]
  [toSub : Sub α]
  [toMul : Mul α]
  [toDiv : Div α]
  [toNeg : Neg α]
  [toLT : LT α]
  [toLE : LE α]
  [toBEq : BEq α]
  [toOfScientific : OfScientific α]
  [decLt : DecidableLT α]
  [decLe : DecidableLE α]
  ofInt : Int → α
  /-- Truncation toward zero into `0 … 2^64 - 1`, the nearest bound when the value lies outside. -/
  toNat : α → Nat
  abs : α → α
  exp : α → α
  sqrt : α → α
  /-- The nearest integer, halves away from zero. -/
  round : α → α
  floor : α → α
  ceil : α → α
  pi : α
  isFinite : α → Bool

/-! ## The operations as instances

They come last in every search, so a concrete type of scalars keeps its own operations. -/

section

variable {α : Type} [Scalar α]

instance (priority := 100) Scalar.instZero : Zero α := Scalar.toZero

instance (priority := 100) Scalar.instOne : One α := Scalar.toOne

instance (priority := 100) Scalar.instAdd : Add α := Scalar.toAdd

instance (priority := 100) Scalar.instSub : Sub α := Scalar.toSub

instance (priority := 100) Scalar.instMul : Mul α := Scalar.toMul

instance (priority := 100) Scalar.instDiv : Div α := Scalar.toDiv

instance (priority := 100) Scalar.instNeg : Neg α := Scalar.toNeg

instance (priority := 100) Scalar.instLT : LT α := Scalar.toLT

instance (priority := 100) Scalar.instLE : LE α := Scalar.toLE

instance (priority := 100) Scalar.instBEq : BEq α := Scalar.toBEq

instance (priority := 100) Scalar.instOfScientific : OfScientific α := Scalar.toOfScientific

instance (priority := 100) Scalar.instDecidableLT : DecidableLT α := Scalar.decLt

instance (priority := 100) Scalar.instDecidableLE : DecidableLE α := Scalar.decLe

end

/-- Binary64 numbers as scalars. -/
instance : Scalar Float where
  toZero := ⟨0.0⟩
  toOne := ⟨1.0⟩
  ofInt := Float.ofInt
  toNat x := x.toUInt64.toNat
  abs := Float.abs
  exp := Float.exp
  sqrt := Float.sqrt
  round := Float.round
  floor := Float.floor
  ceil := Float.ceil
  pi := 3.141592653589793
  isFinite := Float.isFinite

namespace Scalar

variable {α : Type} [Scalar α]

/-- A natural number as a scalar. -/
@[inline] def ofNat (n : Nat) : α := ofInt n

/-- `x` to the power `n`, by repeated squaring. -/
def powNat (x : α) (n : Nat) : α := go x n 1
where
  go (x : α) (n : Nat) (acc : α) : α :=
    if n = 0 then acc
    else
      let acc := if n % 2 = 1 then acc * x else acc
      if n / 2 = 0 then acc else go (x * x) (n / 2) acc

/-- `x` to an integer power; a negative power is the reciprocal of the positive one. -/
def powInt (x : α) (e : Int) : α :=
  let r := powNat x e.natAbs
  if e < 0 then 1 / r else r

/-- The lesser of two scalars; a side that does not compare gives way to the other. -/
def least (a b : α) : α :=
  if a ≤ b then a else if b ≤ a then b else if b == b then b else a

/-- A number of decimal places in signed 32-bit arithmetic. -/
def signedPlaces (places : Nat) : Int :=
  (places : Int).bmod (Nat.pow 2 32)

/-- Rounds to a number of decimal places, halves away from zero. -/
def roundToPlaces (value : α) (places : Nat) : α :=
  let factor : α := powInt 10.0 (signedPlaces places)
  round (value * factor) / factor

end Scalar

end DanglingBonds
