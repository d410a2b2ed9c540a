/-
# Screened Coulomb potentials

The potential of a unit charge on the surface, of a point charge, and the distance at which the
potential has fallen to a target.
-/
import DanglingBonds.Scalar

namespace DanglingBonds

variable {α : Type} [Scalar α]

/-- Vacuum permittivity in F/m. -/
def vacuumPermittivity : α := 8.854e-12

/-- Elementary charge in C. -/
def elementaryCharge : α := 1.602e-19

/-- Coulomb constant of a surface, in N·m²/C². -/
def coulombConstant (epsilonR : α) : α :=
  1 / (4.0 * Scalar.pi * vacuumPermittivity * epsilonR)

/-- Potential in volts of a unit charge at `d` nanometres. Closer than a billionth of a nanometre
there is none: a site does not act on itself. -/
def screenedPotential (d epsilonR lambdaTF : α) : α :=
  if d < 1e-9 then 0
  else coulombConstant epsilonR * elementaryCharge / (d * 1e-9) * Scalar.exp (-d / lambdaTF)

/-- Potential in volts of a point charge at `d` nanometres. -/
def pointPotential (charge d epsilonR lambdaTF : α) : α :=
  charge * screenedPotential d epsilonR lambdaTF

/-- The first of the distances `k * step`, `(k + 1) * step`, …, at most `count` of them, at which
the unit potential is at most `target`. -/
def firstDistance (target epsilonR lambdaTF step : α) (k : Nat) : Nat → Option α
  | 0 => none
  | count + 1 =>
    let d := Scalar.ofNat k * step
    if screenedPotential d epsilonR lambdaTF ≤ target then some d
    else firstDistance target epsilonR lambdaTF step (k + 1) count

/-- The power of ten of a distance grid with so many decimal places, in signed 32-bit arithmetic. -/
def gridExponent (places : Nat) : Int :=
  (-Scalar.signedPlaces places).bmod (Nat.pow 2 32)

/-- The smallest distance on the grid with `places` decimals, up to 1000 nanometres, at which the
unit potential is at most `target`. No distance has a potential of zero or less. -/
def distanceForPotential (target epsilonR lambdaTF : α) (places : Nat) : Option α :=
  if 0 < target then
    let step : α := Scalar.powInt 10.0 (gridExponent places)
    firstDistance target epsilonR lambdaTF step 1 (Scalar.toNat (Scalar.ceil (1000.0 / step)))
  else none

end DanglingBonds
