/-
# Stable sorting and first minima

`sortBy` sorts by a strict order and leaves entries that do not precede each other in the order
given; `firstMin` takes the earliest of the least entries.
-/
namespace DanglingBonds

variable {β : Type}

/-- Puts `x` into a list kept from last to first, behind the entries that `x` precedes. -/
def insertBack (lt : β → β → Bool) (x : β) : List β → List β
  | [] => [x]
  | y :: ys => if lt x y then y :: insertBack lt x ys else x :: y :: ys

/-- The entries of `xs` from first to last; ties keep their order. -/
def sortBy (lt : β → β → Bool) (xs : List β) : List β :=
  (xs.foldl (fun acc x => insertBack lt x acc) []).reverse

/-- The earliest entry of `xs` that no other entry precedes. -/
def firstMin (lt : β → β → Bool) : List β → Option β
  | [] => none
  | x :: xs => some (xs.foldl (fun m y => if lt y m then y else m) x)

end DanglingBonds
