/-
# Gray codes

A walk over all words of a number of bits, from zero on, that flips one bit a step. The word after
`c` steps is `c` xor `c / 2`.
-/
namespace DanglingBonds

/-- A place in the walk. -/
structure GrayCode where
  /-- Number of steps of the whole walk. -/
  last : Nat
  /-- Number of steps taken. -/
  taken : Nat
  current : Nat
  previous : Nat
  deriving DecidableEq, Repr

namespace GrayCode

/-- The word after `c` steps. -/
def word (c : Nat) : Nat :=
  c ^^^ (c >>> 1)

/-- Number of zeros below the lowest set bit of a word of `width` bits, `width` if no bit is set. -/
def trailingZeros : (width : Nat) → (w : Nat) → Nat
  | 0, _ => 0
  | width + 1, w => if w % 2 = 1 then 0 else trailingZeros width (w / 2) + 1

/-- The start of the walk over words of `bits` bits, of at most 64 bits. -/
def start (bits : Nat) : GrayCode :=
  ⟨Nat.pow 2 (min bits 64) - 1, 0, 0, 0⟩

/-- Number of steps left. -/
def left (g : GrayCode) : Nat :=
  g.last - g.taken

/-- The bit flipped by the next step and the place after it, unless the walk is over. -/
def step? (g : GrayCode) : Option (Nat × GrayCode) :=
  if g.taken < g.last then
    let next := word (g.taken + 1)
    some (trailingZeros 64 (next ^^^ g.current), ⟨g.last, g.taken + 1, next, g.current⟩)
  else none

/-- A step leaves fewer steps. -/
theorem left_lt_of_step? {g g' : GrayCode} {bit : Nat} (h : g.step? = some (bit, g')) :
    g'.left < g.left := by
  simp only [step?] at h
  split at h
  · cases h; simp only [left]; omega
  · cases h

/-- Induction along a walk: from its end back, one step at a time. -/
@[elab_as_elim]
theorem step_induction {motive : GrayCode → Prop}
    (ended : ∀ g : GrayCode, g.step? = none → motive g)
    (step : ∀ (g : GrayCode) (bit : Nat) (g' : GrayCode),
      g.step? = some (bit, g') → motive g' → motive g)
    (g : GrayCode) : motive g :=
  match h : g.step? with
  | none => ended g h
  | some (bit, g') =>
    have := left_lt_of_step? h
    step g bit g' h (step_induction ended step g')
termination_by g.left

end GrayCode

end DanglingBonds
