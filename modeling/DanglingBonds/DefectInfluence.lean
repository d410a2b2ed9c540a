/-
# Defect influence

The site farthest from a layout at which a defect still changes the ground state, among the free
sites of a box around the layout.
-/
import DanglingBonds.Enumeration
import DanglingBonds.Progress

namespace DanglingBonds

/-- How far beyond the layout's bounding box sites are scanned. -/
structure ScanningArea where
  /-- Columns on each side. -/
  columns : Int
  /-- Dimer rows above and below. -/
  dimerRows : Int
  deriving DecidableEq, Repr

instance : Inhabited ScanningArea := ⟨⟨50, 6⟩⟩

/-- Options of a defect scan. -/
structure ScanOptions (α : Type) where
  parameters : Parameters α
  defect : Defect α
  area : ScanningArea

/-- A defect position, and its distance in nanometres from the nearest cell. -/
structure DefectInfluence (α : Type) where
  position : Site
  distance : α

/-- The result of a scan. -/
structure DefectScan (α : Type) where
  farthest : DefectInfluence α
  /-- Number of simulations. -/
  simulations : Nat
  /-- Number of positions. -/
  positions : Nat

/-- The integers from `lo` to `hi`. -/
def intRange (lo hi : Int) : List Int :=
  (List.range (hi - lo + 1).toNat).map fun (k : Nat) => lo + k

variable {α : Type} [Scalar α]

/-- The position reported when nothing is influenced. -/
def DefectInfluence.none : DefectInfluence α :=
  ⟨⟨0, 0, 0⟩, 0⟩

/-- Free sites of the bounding box, widened by the scanning area, in order; without cells there is
no box. The rows and columns of the widened box are meant to be signed words of 64 bits. -/
def Layout.scanSites (l : Layout α) (area : ScanningArea) : Option (List Site) :=
  l.boundingBox.map fun (nw, se) =>
    ((intRange (nw.row - 2 * area.dimerRows) (se.row + 2 * area.dimerRows)).flatMap fun row =>
      (intRange (nw.x - area.columns) (se.x + area.columns)).map fun x => Site.ofRow x row).filter
        fun s => l.isVacant s && !l.hasDefect s

/-- The charges of the ground states, sorted and without repeats, in the base of the parameters. -/
def Layout.groundCharges (l : Layout α) (p : Parameters α) :
    Except (AnalysisError α) (List (List Charge)) :=
  (l.enumeratePruned p .off).map fun r =>
    (sortBy chargesBefore (r.groundStates.map fun s => s.charges.toList)).eraseReps

/-- A defect influences a layout when its ground state becomes degenerate or another one. -/
def isInfluenced (reference disturbed : List (List Charge)) : Bool :=
  1 < disturbed.length || disturbed != reference

/-- Distance from a site to the nearest cell of a layout. The fold over all cells stands for a query
of a spatial index, which is taken to answer with a nearest point. -/
def Layout.distanceToCells (l : Layout α) (s : Site) : α :=
  let p : Position α := l.lattice.position s
  let squares := l.sites.map fun c => Lattice.squaredDistance p (l.lattice.position c)
  match squares with
  | [] => 0
  | d :: ds => Scalar.sqrt (ds.foldl (fun m d => if d < m then d else m) d)

/-- The influence of a defect at a position, if it has one. -/
def Layout.influenceAt (l : Layout α) (o : ScanOptions α) (reference : List (List Charge))
    (s : Site) : Except (AnalysisError α) (Option (DefectInfluence α)) :=
  ((l.placeDefect s o.defect).groundCharges o.parameters).map fun disturbed =>
    if isInfluenced reference disturbed then some ⟨s, l.distanceToCells s⟩ else none

/-- The farther of two positions; of two equally far ones the earlier site. -/
def DefectInfluence.farther (best candidate : DefectInfluence α) : DefectInfluence α :=
  if best.distance < candidate.distance then candidate
  else if candidate.distance == best.distance then
    if candidate.position.Before best.position then candidate else best
  else best

/-- Steps of a scan: what they have reported outlives a failure. -/
abbrev Scan (ε : Type) := EStateM ε (List Event)

/-- Tries positions in order, up to the first error, and collects the influences. -/
def scanPositions (influence : Site → Except (AnalysisError α) (Option (DefectInfluence α))) :
    List Site → Scan (AnalysisError α) (List (DefectInfluence α))
  | [] => return []
  | s :: rest =>
    match influence s with
    | .error e => throw e
    | .ok found => do
      tick
      let others ← scanPositions influence rest
      return found.toList ++ others

/-- The farthest influential position of a defect. -/
def Layout.scanDefect (l : Layout α) (o : ScanOptions α) :
    Reported (AnalysisError α) (DefectScan α) :=
  match o.parameters.check *> o.defect.check with
  | .error e => .refused (.parameters e)
  | .ok () =>
    match l.scanSites o.area with
    | none => .immediate ⟨.none, 0, 0⟩
    | some sites =>
      match l.groundCharges o.parameters with
      | .error e => .refused e
      | .ok reference =>
        let scan : Scan (AnalysisError α) (DefectScan α) := do
          let found ← task "Defect influence" sites.length
            (scanPositions (l.influenceAt o reference) sites)
          return ⟨found.foldl .farther .none, sites.length + 1, sites.length⟩
        .ofResult (scan.run [])

end DanglingBonds
