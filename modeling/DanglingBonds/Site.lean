/-
# Lattice sites

A site has a dimer column `x`, a dimer row `y` and a half `z` of that row. Counting every half row
as a row of its own gives the site's row `2 y + z`; sites are ordered by row, then by column.
-/
import DanglingBonds.Table
import DanglingBonds.Decimal.Digits

namespace DanglingBonds

/-- A site of the surface lattice. The half `z` of a dimer row is 0 or 1 in a normal layout. -/
structure Site where
  x : Int
  y : Int
  z : Nat
  deriving DecidableEq, Repr, Inhabited

namespace Site

/-- The row, each half of a dimer row counted as one. Coordinates stand for signed words of 64 bits,
so a site is meant whose row is such a word too. -/
def row (s : Site) : Int :=
  2 * s.y + s.z

/-- The site in column `x` of a row: even rows are the first halves. -/
def ofRow (x row : Int) : Site :=
  ⟨x, row / 2, (row % 2).toNat⟩

/-- Rows come before columns, so sites are listed from north to south and from west to east. -/
instance : Ranked Site where
  rank s := (s.row, s.x)

/-- The order of sites. -/
def Before (a b : Site) : Prop :=
  RankBefore (Ranked.rank a) (Ranked.rank b)

instance (a b : Site) : Decidable (Before a b) :=
  inferInstanceAs (Decidable (RankBefore _ _))

/-- Whether two sites have the same row and column. -/
def sameRank (a b : Site) : Bool :=
  decide (Ranked.rank a = Ranked.rank b)

/-- The text shown to the user. -/
def text (s : Site) : String :=
  s!"({Decimal.intText s.x}, {Decimal.intText s.y}, {Decimal.natText s.z})"

end Site

end DanglingBonds
