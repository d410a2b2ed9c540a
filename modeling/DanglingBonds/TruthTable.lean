/-
# Truth tables

A completely specified Boolean function of `vars` inputs. The text of a table lists its values from
the highest input combination to the lowest.
-/
import DanglingBonds.Text.Blank
import DanglingBonds.Decimal.Digits

namespace DanglingBonds

/-- Why a text is not a truth table. -/
inductive TruthTableError where
  | invalidLength (length : Nat)
  | invalidCharacter (c : Char)
  deriving DecidableEq, Repr

/-- The text shown to the user. -/
def TruthTableError.message : TruthTableError → String
  | invalidLength n => s!"Truth table length {Decimal.natText n} is not a power of two"
  | invalidCharacter c => s!"Invalid character '{c}' in truth table, expected '0' or '1'"

/-- A Boolean function: its values for the input combinations 0, 1, 2, … -/
structure TruthTable where
  vars : Nat
  bits : List Bool
  length_bits : bits.length = Nat.pow 2 vars

namespace TruthTable

/-- The value a character stands for. -/
def bitOfChar? : Char → Option Bool
  | '0' => some false
  | '1' => some true
  | _ => none

/-- The values of a list of characters, or the first of them that is neither `0` nor `1`. -/
def readBits : List Char → Except TruthTableError (List Bool)
  | [] => .ok []
  | c :: cs =>
    match bitOfChar? c with
    | none => .error (.invalidCharacter c)
    | some b => (readBits cs).map (b :: ·)

/-- Reading keeps the number of characters. -/
theorem length_of_readBits {cs : List Char} {bs : List Bool} (h : readBits cs = .ok bs) :
    bs.length = cs.length := by
  induction cs generalizing bs with
  | nil => cases h; rfl
  | cons c cs ih =>
    simp only [readBits] at h
    split at h
    · cases h
    · rename_i b _
      cases hr : readBits cs with
      | error e => rw [hr] at h; cases h
      | ok bs' => rw [hr] at h; cases h; simp [ih hr]

/-- The table a list of characters stands for, the value of the highest combination first. The
length is checked before the characters, and those from the last to the first. -/
def ofChars (cs : List Char) : Except TruthTableError TruthTable :=
  if hlen : cs.length = Nat.pow 2 cs.length.log2 then
    match hbits : readBits cs.reverse with
    | .error e => .error e
    | .ok bits => .ok ⟨cs.length.log2, bits, by rw [length_of_readBits hbits]; simpa using hlen⟩
  else .error (.invalidLength cs.length)

/-- The table that a text stands for. -/
def ofText (s : String) : Except TruthTableError TruthTable :=
  ofChars s.toList

/-- Like `ofText`, without regard to white space around the text. -/
def parse (s : String) : Except TruthTableError TruthTable :=
  ofChars (Text.trim s.toList)

/-- The values as characters, that of the highest combination first. -/
def chars (t : TruthTable) : List Char :=
  t.bits.reverse.map fun b => if b then '1' else '0'

def text (t : TruthTable) : String :=
  String.ofList t.chars

/-- The value for an input combination, if there is such a combination. -/
def bit? (t : TruthTable) (i : Nat) : Option Bool :=
  t.bits[i]?

/-! ## Common functions -/

/-- The table of a function on input combinations. -/
def ofFunction (vars : Nat) (f : Nat → Bool) : TruthTable :=
  ⟨vars, (List.range (Nat.pow 2 vars)).map f, by simp⟩

def identity : TruthTable := ofFunction 1 (· == 1)

def not : TruthTable := ofFunction 1 (· == 0)

def and : TruthTable := ofFunction 2 (· == 3)

def or : TruthTable := ofFunction 2 (· != 0)

def nand : TruthTable := ofFunction 2 (· != 3)

def nor : TruthTable := ofFunction 2 (· == 0)

def xor : TruthTable := ofFunction 2 fun i => i == 1 || i == 2

def xnor : TruthTable := ofFunction 2 fun i => i == 0 || i == 3

end TruthTable

end DanglingBonds
