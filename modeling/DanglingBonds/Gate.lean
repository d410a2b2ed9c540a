/-
# Gates

Whether a layout computes given truth tables: for every input combination the ground state has to be
unique, free of positive charges, and to carry the expected bit on every output pair.
-/
import DanglingBonds.Enumeration
import DanglingBonds.Terminal
import DanglingBonds.TruthTable

namespace DanglingBonds

/-- Options of a gate check. -/
structure GateOptions (α : Type) where
  parameters : Parameters α
  engine : Engine
  window : PairWindow α

/-- Why a gate fails for an input combination. -/
inductive FailureReason where
  | positiveCharges
  | noValidDistribution
  | degenerateGroundState
  | undefinedOutput (output : Nat)
  | wrongOutput (output : Nat)
  deriving DecidableEq, Repr

/-- Whether a gate works. -/
inductive Status where
  | operational
  | nonOperational
  deriving DecidableEq, Repr

def Status.name : Status → String
  | operational => "operational"
  | nonOperational => "non-operational"

/-- The verdict on a gate. -/
structure Assessment where
  /-- The first failing input combination and the reason. -/
  failure : Option (Nat × FailureReason)
  /-- Number of simulations before the verdict was reached. -/
  simulations : Nat
  deriving DecidableEq, Repr

/-- A gate works when no input combination fails. -/
def Assessment.status (a : Assessment) : Status :=
  if a.failure.isNone then .operational else .nonOperational

/-- Charges of the upper and the lower cell of a pair that carries a bit. -/
def pairCharges (bit : Bool) : Charge × Charge :=
  if bit then (.neutral, .negative) else (.negative, .neutral)

/-- The first output, counted from `output`, whose pair does not carry its bit. -/
def firstBadOutput (charge : Site → Option Charge) (index output : Nat) :
    List (Pair × TruthTable) → Option FailureReason
  | [] => none
  | (pair, table) :: rest =>
    let upper := charge pair.upper
    let lower := charge pair.lower
    let expected := pairCharges ((table.bit? index).getD false)
    if upper = lower then some (.undefinedOutput output)
    else if upper ≠ some expected.1 ∨ lower ≠ some expected.2 then some (.wrongOutput output)
    else firstBadOutput charge index (output + 1) rest

variable {α : Type} [Scalar α]

/-- The number of tables has to be that of the output pairs, which is not zero, and each table has
to have as many inputs as there are input pairs. -/
def checkArity (tables : List TruthTable) (inputPairs outputPairs : Nat) :
    Except (AnalysisError α) Unit :=
  if tables.length ≠ outputPairs ∨ outputPairs = 0 then
    .error (.outputArity tables.length outputPairs)
  else
    match tables.find? fun t => t.vars ≠ inputPairs with
    | some t => .error (.inputArity t.vars inputPairs)
    | none => .ok ()

/-- Whether a simulation was needed for an input combination, and what is wrong with it. -/
structure InputVerdict where
  simulated : Bool
  failure : Option FailureReason
  deriving DecidableEq, Repr

/-- What a simulation of input combination `index` says about the outputs. -/
def Simulation.failure? {n : Nat} (r : Simulation α n) (index : Nat)
    (outputs : List (Pair × TruthTable)) : Option FailureReason :=
  match r.groundState? with
  | none => some .noValidDistribution
  | some ground =>
    if r.spectrum.isDegenerate then some .degenerateGroundState
    else firstBadOutput ground.chargeAt? index 0 outputs

/-- Checks the layout for one input combination. -/
def Layout.checkInput (l : Layout α) (index : Nat) (outputs : List (Pair × TruthTable))
    (o : GateOptions α) : Except (AnalysisError α) InputVerdict :=
  if l.admitsPositive o.parameters then .ok ⟨false, some .positiveCharges⟩
  else (l.simulate o.engine o.parameters).map fun r => ⟨true, r.failure? index outputs⟩

/-- Checks `count` input combinations from `index` on and stops at the first that fails.
`simulations` have been run before. -/
def checkInputsFrom (check : Nat → Except (AnalysisError α) InputVerdict)
    (index simulations : Nat) : Nat → Except (AnalysisError α) Assessment
  | 0 => .ok ⟨none, simulations⟩
  | count + 1 =>
    match check index with
    | .error e => .error e
    | .ok v =>
      let simulations := if v.simulated then simulations + 1 else simulations
      match v.failure with
      | some reason => .ok ⟨some (index, reason), simulations⟩
      | none => checkInputsFrom check (index + 1) simulations count

/-- Whether the layout computes the truth tables, one for each output pair from west to east. -/
def Layout.assess (l : Layout α) (tables : List TruthTable) (o : GateOptions α) :
    Except (AnalysisError α) Assessment := do
  o.parameters.check.mapError .parameters
  let inputs := InputTerminals.ofLayout l o.window
  let outputs := l.pairs (some .output) o.window
  checkArity tables inputs.pairs.length outputs.length
  checkInputsFrom (fun i => (inputs.layoutFor i).checkInput i (outputs.zip tables) o) 0 0
    inputs.combinations

end DanglingBonds
