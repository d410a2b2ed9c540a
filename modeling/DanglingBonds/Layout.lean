/-
# Layouts

A layout is a set of dangling bonds with roles on one lattice, together with the surroundings every
simulation of it has to honour: charged defects, potentials applied to single sites and a potential
applied to all of them.
-/
import DanglingBonds.Lattice
import DanglingBonds.Parameters

namespace DanglingBonds

/-- What a dangling bond is for. A site without a dangling bond has no role. -/
inductive Role where
  | normal
  | input
  | output
  deriving DecidableEq, Repr, Inhabited

/-- A fixed point charge with a screening environment of its own. -/
structure Defect (α : Type) where
  /-- Charge in units of the elementary charge. -/
  charge : α
  epsilonR : α
  /-- Thomas-Fermi screening length in nanometres. -/
  lambdaTF : α

/-- Dangling bonds on a surface and their surroundings. -/
structure Layout (α : Type) where
  lattice : Lattice := .si100
  cells : Table Site Role := {}
  defects : Table Site (Defect α) := {}
  /-- Potentials, in volts, applied to single sites. -/
  localPotentials : Table Site α := {}
  /-- Potential, in volts, applied to all sites. -/
  globalPotential : α

variable {α : Type} [Scalar α]

instance : Inhabited (Defect α) := ⟨⟨-1, 5.6, 5.0⟩⟩

/-- A defect's permittivity and screening length have to be positive. -/
def Defect.check (d : Defect α) : Except (ParameterError α) Unit :=
  checkScreening d.epsilonR d.lambdaTF

namespace Layout

/-- A layout without cells. -/
def empty (lattice : Lattice) : Layout α :=
  { lattice, globalPotential := 0 }

instance : Inhabited (Layout α) := ⟨empty .si100⟩

/-- Gives the cell at `s` a role; without a role the cell is removed. -/
def setRole (l : Layout α) (s : Site) : Option Role → Layout α
  | some r => { l with cells := l.cells.insert s r }
  | none => { l with cells := l.cells.erase s }

/-- A layout from sites and roles, assigned in order. -/
def ofCells (lattice : Lattice) (cells : List (Site × Option Role)) : Layout α :=
  cells.foldl (fun l c => l.setRole c.1 c.2) (empty lattice)

def removeCell (l : Layout α) (s : Site) : Layout α :=
  { l with cells := l.cells.erase s }

/-- The role of the cell at a site, if one is there. -/
def role? (l : Layout α) (s : Site) : Option Role :=
  l.cells.get? s

/-- Whether no cell occupies `s`. -/
def isVacant (l : Layout α) (s : Site) : Bool :=
  !l.cells.contains s

/-- Number of cells. -/
def size (l : Layout α) : Nat :=
  l.cells.size

def isEmpty (l : Layout α) : Bool :=
  l.cells.isEmpty

/-- The occupied sites, in order. -/
def sites (l : Layout α) : List Site :=
  l.cells.keys

/-- The occupied sites with a role, in order; no occupied site is without one. -/
def sitesWithRole (l : Layout α) (r : Option Role) : List Site :=
  (l.cells.entries.filter fun e => some e.2 == r).map (·.1)

/-- Puts a defect on a site, in place of one that is there. -/
def placeDefect (l : Layout α) (s : Site) (d : Defect α) : Layout α :=
  { l with defects := l.defects.insert s d }

def removeDefect (l : Layout α) (s : Site) : Layout α :=
  { l with defects := l.defects.erase s }

def hasDefect (l : Layout α) (s : Site) : Bool :=
  l.defects.contains s

/-- Replaces the potential applied to one site. -/
def setLocalPotential (l : Layout α) (s : Site) (v : α) : Layout α :=
  { l with localPotentials := l.localPotentials.insert s v }

/-- The potential applied to `s` alone, zero where none was set. -/
def localPotential (l : Layout α) (s : Site) : α :=
  (l.localPotentials.get? s).getD 0

/-- Replaces the potential applied to all sites. -/
def setGlobalPotential (l : Layout α) (v : α) : Layout α :=
  { l with globalPotential := v }

/-- The first error among the defects, in the order of their sites. -/
def checkDefects (l : Layout α) : Except (ParameterError α) Unit :=
  l.defects.values.forM Defect.check

/-- The north-west and south-east corners of the smallest box of rows and columns that holds all
cells; without cells there is none. -/
def boundingBox (l : Layout α) : Option (Site × Site) :=
  match l.sites with
  | [] => none
  | s :: rest =>
    let west := rest.foldl (fun m c => min m c.x) s.x
    let east := rest.foldl (fun m c => max m c.x) s.x
    let north := rest.foldl (fun m c => min m c.row) s.row
    let south := rest.foldl (fun m c => max m c.row) s.row
    some (.ofRow west north, .ofRow east south)

end Layout

end DanglingBonds
