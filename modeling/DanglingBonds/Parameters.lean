/-
# Physical parameters

The parameters of one simulation, and the reasons for which parameters are refused.

* `Parameters.check` : base 2 or 3, positive permittivity and screening length, finite level.
-/
import DanglingBonds.Scalar
import DanglingBonds.Decimal.Shortest

namespace DanglingBonds

/-- Why physical parameters are refused. -/
inductive ParameterError (α : Type) where
  | invalidBase (base : Nat)
  | nonPositiveEpsilonR (value : α)
  | nonPositiveLambdaTF (value : α)
  | nonFiniteMuMinus (value : α)
  deriving Repr

/-- The text shown to the user. -/
def ParameterError.message : ParameterError Float → String
  | invalidBase b => s!"Base number must be 2 or 3, got {Decimal.natText b}"
  | nonPositiveEpsilonR v => s!"Relative permittivity must be positive, got {Decimal.shortest v}"
  | nonPositiveLambdaTF v =>
    s!"Thomas-Fermi screening length must be positive, got {Decimal.shortest v} nm"
  | nonFiniteMuMinus v => s!"Transition level mu_minus must be finite, got {Decimal.shortest v}"

/-- Parameters of one simulation. -/
structure Parameters (α : Type) where
  /-- Number of charge states: 2 (negative, neutral) or 3 (positive as well). -/
  base : Nat
  /-- Relative permittivity of the surface. -/
  epsilonR : α
  /-- Thomas-Fermi screening length in nanometres. -/
  lambdaTF : α
  /-- Energy of the level between negative and neutral, in electronvolts. -/
  muMinus : α
  deriving Repr

section

variable {α : Type} [Scalar α]

instance : Inhabited (Parameters α) := ⟨⟨3, 5.6, 5.0, -0.32⟩⟩

/-- The distance in energy between the two transition levels. -/
def transitionGap : α := 0.59

/-- The tolerance, in electronvolts, of every stability comparison. -/
def stabilityTolerance : α := 1e-6

/-- Decimal places to which energies are rounded before they are compared. -/
def energyPlaces : Nat := 6

/-- An energy as it is compared with others. -/
def roundEnergy (e : α) : α :=
  Scalar.roundToPlaces e energyPlaces

/-- Permittivity and screening length, of a surface or around a defect, have to be positive. -/
def checkScreening (epsilonR lambdaTF : α) : Except (ParameterError α) Unit :=
  if ¬ 0 < epsilonR then .error (.nonPositiveEpsilonR epsilonR)
  else if ¬ 0 < lambdaTF then .error (.nonPositiveLambdaTF lambdaTF)
  else .ok ()

namespace Parameters

/-- Energy of the level between neutral and positive, in electronvolts. -/
def muPlus (p : Parameters α) : α :=
  p.muMinus - transitionGap

/-- The base comes first, then permittivity and screening length, then the transition level. -/
def check (p : Parameters α) : Except (ParameterError α) Unit := do
  if p.base ≠ 2 ∧ p.base ≠ 3 then throw (.invalidBase p.base)
  checkScreening p.epsilonR p.lambdaTF
  if !Scalar.isFinite p.muMinus then throw (.nonFiniteMuMinus p.muMinus)

end Parameters

end

end DanglingBonds
