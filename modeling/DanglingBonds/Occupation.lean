/-
# Excited states

Which valid charge assignments of a gate show the expected outputs, and how probable the others are
at a temperature, by Boltzmann's distribution.
-/
import DanglingBonds.Gate

namespace DanglingBonds

variable {α : Type} [Scalar α]

/-- Boltzmann constant in eV/K. -/
def boltzmannConstant : α := 8.617e-5

/-- The rounded energy of a charge assignment and whether it shows the expected outputs. -/
structure StateEnergy (α : Type) where
  energy : α
  transparent : Bool

/-- Whether an assignment shows the expected bits: the lower cell of a pair is charged for a one and
neutral for a zero. -/
def showsOutputs (charge : Site → Option Charge) (index : Nat)
    (outputs : List (Pair × TruthTable)) : Bool :=
  outputs.all fun (pair, table) =>
    let charged :=
      match charge pair.lower with
      | some .negative | some .positive => true
      | some .neutral | none => false
    table.bit? index == some charged

/-- The states of a simulation of input combination `index`, by ascending energy. -/
def Simulation.stateEnergies {n : Nat} (r : Simulation α n) (outputs : List Pair)
    (tables : List TruthTable) (index : Nat) :
    Except (AnalysisError α) (List (StateEnergy α)) :=
  if outputs.isEmpty || outputs.length != tables.length then
    .error (.outputArity tables.length outputs.length)
  else
    .ok <| sortBy (fun a b => decide (a.energy < b.energy)) <|
      r.distributions.map fun s =>
        ⟨roundEnergy s.energy, showsOutputs s.chargeAt? index (outputs.zip tables)⟩

/-- A temperature in kelvin is finite and not negative. -/
def checkTemperature (t : α) : Except (SetupError α) Unit :=
  if Scalar.isFinite t && 0 ≤ t then .ok () else .error (.temperature t)

/-- Relative weight of a state `excitation` electronvolts above the ground state. At zero kelvin
only ground states have weight. -/
def boltzmannFactor (excitation t : α) : α :=
  if t == 0 then if 0 < excitation then 0 else 1
  else Scalar.exp (-excitation / (boltzmannConstant * t))

/-- The least energy of a list of states. -/
def leastEnergy? : List (StateEnergy α) → Option α
  | [] => none
  | s :: ss => some (ss.foldl (fun m s => Scalar.least m s.energy) s.energy)

/-- Probability, at `t` kelvin, of a state that does not show the expected outputs. -/
def erroneousProbability (states : List (StateEnergy α)) (t : α) : Except (SetupError α) α := do
  checkTemperature t
  match leastEnergy? states with
  | none => return 0
  | some ground =>
    let weight (s : StateEnergy α) := boltzmannFactor (s.energy - ground) t
    let total := states.foldl (fun z s => z + weight s) 0
    let wrong := states.foldl (fun z s => if s.transparent then z else z + weight s) 0
    return wrong / total

/-- Probability, at `t` kelvin, of a state above the lowest level. -/
def excitedProbability (s : Spectrum α) (t : α) : Except (SetupError α) α := do
  checkTemperature t
  match s.ground? with
  | none => return 0
  | some ground =>
    let weight (level : α × Nat) :=
      Scalar.ofNat level.2 * boltzmannFactor (level.1 - ground) t
    let total := s.levels.foldl (fun z l => z + weight l) 0
    let excited := s.levels.foldl (fun z l => if ground < l.1 then z + weight l else z) 0
    return excited / total

end DanglingBonds
