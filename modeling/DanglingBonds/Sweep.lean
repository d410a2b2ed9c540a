/-
# Sweep axes

One axis of a parameter grid runs from a minimum in equal steps while the value stays within a
maximum.
-/
import DanglingBonds.Parameters

namespace DanglingBonds

/-- The parameter that an axis varies. -/
inductive SweepParameter where
  | epsilonR
  | lambdaTF
  | muMinus
  deriving DecidableEq, Repr

namespace SweepParameter

/-- The name shown to the user. -/
def name : SweepParameter → String
  | epsilonR => "epsilon_r"
  | lambdaTF => "lambda_tf"
  | muMinus => "mu_minus"

/-- Replaces the parameter's value. -/
def apply {α : Type} (s : SweepParameter) (p : Parameters α) (v : α) : Parameters α :=
  match s with
  | epsilonR => { p with epsilonR := v }
  | lambdaTF => { p with lambdaTF := v }
  | muMinus => { p with muMinus := v }

end SweepParameter

/-- A parameter and the values it takes. -/
structure SweepAxis (α : Type) where
  parameter : SweepParameter
  min : α
  max : α
  step : α

/-- What is wrong with an axis. -/
inductive AxisFault where
  | notFinite
  | stepNotPositive
  | inverted
  deriving DecidableEq, Repr

/-- The text shown to the user. -/
def AxisFault.message : AxisFault → String
  | notFinite => "bounds and step must be finite"
  | stepNotPositive => "step must be positive"
  | inverted => "minimum exceeds maximum"

namespace SweepAxis

variable {α : Type} [Scalar α]

/-- How far, in steps, the maximum may lie from a grid point to count as one. -/
def alignmentTolerance : α := 1e-6

/-- The first fault of an axis, if it has one. -/
def fault? (a : SweepAxis α) : Option AxisFault :=
  if !(Scalar.isFinite a.min && Scalar.isFinite a.max && Scalar.isFinite a.step) then
    some .notFinite
  else if ¬ 0 < a.step then some .stepNotPositive
  else if a.max < a.min then some .inverted
  else none

/-- Number of steps from the minimum to the last value that does not exceed the maximum. -/
def steps (a : SweepAxis α) : Nat :=
  let ratio := (a.max - a.min) / a.step
  let nearest := Scalar.round ratio
  let n :=
    if Scalar.abs (ratio - nearest) < alignmentTolerance then nearest else Scalar.floor ratio
  Scalar.toNat n

/-- Number of values, counted in 64 bits. -/
def points (a : SweepAxis α) : Nat :=
  (a.steps + 1) % Nat.pow 2 64

/-- The value after `i` steps, at most the maximum. -/
def value (a : SweepAxis α) (i : Nat) : α :=
  Scalar.least (a.min + Scalar.ofNat i * a.step) a.max

end SweepAxis

end DanglingBonds
