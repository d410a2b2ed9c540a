/-
# Random layouts

Layouts of a given number of cells, drawn from the sites of a rectangle.
-/
import DanglingBonds.Draw
import DanglingBonds.Environment
import DanglingBonds.Failure

namespace DanglingBonds

/-- Whether cells of a random layout may become positive. -/
inductive PositiveCharges where
  | allowed
  | forbidden
  deriving DecidableEq, Repr, Inhabited

/-- Options of a random layout. Sites are counted in 64 bits, and their rows and columns are signed
words, so a rectangle is meant with less than `2 ^ 64` sites between two corners of that kind. -/
structure RandomLayoutOptions (α : Type) where
  /-- First site of the rectangle. -/
  northWest : Site
  /-- Last site of the rectangle. -/
  southEast : Site
  cells : Nat
  positiveCharges : PositiveCharges
  parameters : Parameters α
  attempts : Nat

/-- Steps that draw layouts: they count the draws, and the count outlives a failure. -/
abbrev Drawing (α : Type) := EStateM (AnalysisError α) Nat

/-- What drawing from the first draw on yields. -/
def Drawing.result {α β : Type} (m : Drawing α β) : Except (AnalysisError α) β :=
  match m.run 0 with
  | .ok b _ => .ok b
  | .error e _ => .error e

variable {α : Type} [Scalar α]

namespace RandomLayoutOptions

/-- Number of columns of the rectangle. -/
def columns (o : RandomLayoutOptions α) : Nat :=
  (o.southEast.x - o.northWest.x + 1).toNat

/-- Number of rows of the rectangle. -/
def rows (o : RandomLayoutOptions α) : Nat :=
  (o.southEast.row - o.northWest.row + 1).toNat

/-- Number of sites of the rectangle. -/
def sites (o : RandomLayoutOptions α) : Nat :=
  o.columns * o.rows

/-- The site with a running number, counted along the rows. -/
def site (o : RandomLayoutOptions α) (i : Nat) : Site :=
  .ofRow (o.northWest.x + (i % o.columns : Nat)) (o.northWest.row + (i / o.columns : Nat))

/-- The parameters come first, then the order of the corners, then the number of sites. -/
def check (o : RandomLayoutOptions α) : Except (AnalysisError α) Unit := do
  o.parameters.check.mapError .parameters
  if o.southEast.x < o.northWest.x ∨ o.southEast.row < o.northWest.row then
    throw (.invertedArea o.northWest o.southEast)
  if o.sites < o.cells then throw (.crowdedArea o.cells o.sites)

/-- The layout that draw number `call` yields. -/
def layoutOfDraw (o : RandomLayoutOptions α) (draws : DrawSource) (call : Nat) : Layout α :=
  .ofCells .si100 ((draws.draw call o.sites o.cells).map fun i => (o.site i, some .normal))

/-- Whether a layout may be returned. -/
def accepts (o : RandomLayoutOptions α) (l : Layout α) : Bool :=
  o.positiveCharges == .allowed || !l.admitsPositive o.parameters

/-- The layout of the next draw. -/
def drawLayout (o : RandomLayoutOptions α) (draws : DrawSource) : Drawing α (Layout α) :=
  modifyGet fun call => (o.layoutOfDraw draws call, call + 1)

/-- The first acceptable layout of so many draws. -/
def firstAccepted (o : RandomLayoutOptions α) (draws : DrawSource) : Nat → Drawing α (Layout α)
  | 0 => throw (.exhausted o.attempts)
  | attempts + 1 => do
    let l ← o.drawLayout draws
    if o.accepts l then return l else firstAccepted o draws attempts

/-- The next random layout. -/
def next (o : RandomLayoutOptions α) (draws : DrawSource) : Drawing α (Layout α) :=
  match o.check with
  | .error e => throw e
  | .ok () => o.firstAccepted draws o.attempts

/-- A random layout. -/
def generate (o : RandomLayoutOptions α) (draws : DrawSource) :
    Except (AnalysisError α) (Layout α) :=
  Drawing.result (o.next draws)

/-- Adds layouts with new sites to those found, last found first, until there are `count`. -/
def collect (o : RandomLayoutOptions α) (draws : DrawSource) (count : Nat)
    (found : List (Layout α)) : Nat → Drawing α (List (Layout α))
  | 0 => return found
  | attempts + 1 =>
    if found.length = count then return found
    else do
      let l ← o.next draws
      let found := if found.any (fun m => m.sites == l.sites) then found else l :: found
      collect o draws count found attempts

/-- The next layouts of which no two have the same sites. -/
def nextMany (o : RandomLayoutOptions α) (draws : DrawSource) (count : Nat) :
    Drawing α (List (Layout α)) := do
  let found ← o.collect draws count [] o.attempts
  if found.length < count then throw (.exhausted o.attempts)
  return found.reverse

/-- A number of random layouts, no two with the same sites. -/
def generateMany (o : RandomLayoutOptions α) (draws : DrawSource) (count : Nat) :
    Except (AnalysisError α) (List (Layout α)) :=
  Drawing.result (o.nextMany draws count)

end RandomLayoutOptions

end DanglingBonds
