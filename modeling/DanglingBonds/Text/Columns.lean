/-
# Columns

Texts filled up with blanks to the width of a column, on the left for numbers and on the right for
words. A text that is wider stays as it is.
-/
namespace DanglingBonds

/-- A text at the right end of a column. -/
def alignRight (width : Nat) (s : String) : String :=
  String.ofList (List.leftpad width ' ' s.toList)

/-- A text at the left end of a column. -/
def alignLeft (width : Nat) (s : String) : String :=
  String.ofList (List.rightpad width ' ' s.toList)

end DanglingBonds
