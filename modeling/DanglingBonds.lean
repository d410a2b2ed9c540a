import DanglingBonds.Main
import DanglingBonds.Proofs.Exactness
import DanglingBonds.Proofs.Existence
import DanglingBonds.Proofs.SurfaceInvariant
import DanglingBonds.Proofs.AssignmentOrder
import DanglingBonds.Proofs.BaseChoice
import DanglingBonds.Proofs.BaseIndependence
import DanglingBonds.Proofs.EnergyLevels
import DanglingBonds.Proofs.GateVerdict
import DanglingBonds.Proofs.RefusedDefects
import DanglingBonds.Proofs.DomainAgreement
import DanglingBonds.Proofs.DomainCoverage
import DanglingBonds.Proofs.RoundedEnergies
import DanglingBonds.Proofs.ExcitedStates
import DanglingBonds.Proofs.SingleFunction
import DanglingBonds.Proofs.TranslationInvariance
import DanglingBonds.Proofs.ReportedInfluence
import DanglingBonds.Proofs.ElectronHops
import DanglingBonds.Proofs.CompleteEnumeration
import DanglingBonds.Proofs.PairDetection
import DanglingBonds.Proofs.InputCombinations
import DanglingBonds.Proofs.GroundStateQueries
import DanglingBonds.Proofs.StabilityRadius
import DanglingBonds.Proofs.ThresholdDistance
import DanglingBonds.Proofs.OccupationProbability
import DanglingBonds.Proofs.ZeroKelvin
import DanglingBonds.Proofs.RandomLayouts
import DanglingBonds.Proofs.DrawBudget
import DanglingBonds.Proofs.SweepAxes
import DanglingBonds.Proofs.TruthTableTexts
import DanglingBonds.Proofs.TransposedDomain
import DanglingBonds.Proofs.LayoutHistories
import DanglingBonds.Proofs.PruningSoundness
import DanglingBonds.Proofs.ChargeIndices
import DanglingBonds.Proofs.JobOverrides
import DanglingBonds.Proofs.ProgressReports
import DanglingBonds.Proofs.ToggledCells
