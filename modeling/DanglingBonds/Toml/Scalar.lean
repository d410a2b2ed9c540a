/-
# TOML scalars

Strings in their four spellings, integers, floats and dates. A reader takes the characters that
follow and returns a value with the rest, or nothing if they do not form one.
-/
import DanglingBonds.Decimal.Reading
import DanglingBonds.Toml.Value

namespace DanglingBonds.Toml

/-! ## Strings -/

/-- Control characters other than the tab are not allowed in texts. -/
def isForbidden (c : Char) : Bool :=
  (c.toNat < 32 && c != '\t') || c.toNat == 127

/-- The value of a hexadecimal digit. -/
def hexDigit? (c : Char) : Option Nat :=
  if c.isDigit then some (c.toNat - '0'.toNat)
  else if 'a' ≤ c ∧ c ≤ 'f' then some (c.toNat - 'a'.toNat + 10)
  else if 'A' ≤ c ∧ c ≤ 'F' then some (c.toNat - 'A'.toNat + 10)
  else none

/-- The character with a hexadecimal code. -/
def charOfHex? (digits : List Char) : Option Char :=
  match digits.mapM hexDigit? with
  | none => none
  | some ds =>
    let n := ds.foldl (fun n d => 16 * n + d) 0
    if n.isValidChar then some (Char.ofNat n) else none

/-- What a character stands for behind a backslash. -/
def escape? : Char → Option Char
  | 'b' => some '\x08'
  | 't' => some '\t'
  | 'n' => some '\n'
  | 'f' => some '\x0c'
  | 'r' => some '\r'
  | 'e' => some '\x1b'
  | '"' => some '"'
  | '\\' => some '\\'
  | _ => none

/-- Prepends a character to a text that has been read. -/
def prepend (c : Char) (r : Option (List Char × List Char)) : Option (List Char × List Char) :=
  r.map fun (cs, rest) => (c :: cs, rest)

/-- The rest of a basic string on one line, behind its opening quote. -/
def basicLine : List Char → Option (List Char × List Char)
  | '"' :: rest => some ([], rest)
  | '\\' :: 'x' :: a :: b :: rest =>
    (charOfHex? [a, b]).bind fun x => prepend x (basicLine rest)
  | '\\' :: 'u' :: a :: b :: c :: d :: rest =>
    (charOfHex? [a, b, c, d]).bind fun x => prepend x (basicLine rest)
  | '\\' :: 'U' :: a :: b :: c :: d :: e :: f :: g :: h :: rest =>
    (charOfHex? [a, b, c, d, e, f, g, h]).bind fun x => prepend x (basicLine rest)
  | '\\' :: c :: rest => (escape? c).bind fun x => prepend x (basicLine rest)
  | c :: rest => if isForbidden c then none else prepend c (basicLine rest)
  | [] => none

/-- The rest of a literal string on one line, behind its opening quote. -/
def literalLine : List Char → Option (List Char × List Char)
  | '\'' :: rest => some ([], rest)
  | c :: rest => if isForbidden c then none else prepend c (literalLine rest)
  | [] => none

/-- Where a multi-line basic string stands: in the text, behind a backslash that ends the line, or
in the blanks of the lines after it. -/
inductive LineMode where
  | text
  | lineEnd
  | skipping

/-- The rest of a multi-line basic string. Up to two quotes may stand before the closing three; a
backslash at the end of a line joins it with the next text. Other line breaks stay as they are. -/
def basicLines : LineMode → List Char → Option (List Char × List Char)
  | .lineEnd, '\n' :: rest => basicLines .skipping rest
  | .lineEnd, '\r' :: '\n' :: rest => basicLines .skipping rest
  | .lineEnd, c :: rest => if c = ' ' ∨ c = '\t' then basicLines .lineEnd rest else none
  | .skipping, ' ' :: rest => basicLines .skipping rest
  | .skipping, '\t' :: rest => basicLines .skipping rest
  | .skipping, '\n' :: rest => basicLines .skipping rest
  | .skipping, '\r' :: '\n' :: rest => basicLines .skipping rest
  | _, '"' :: '"' :: '"' :: '"' :: '"' :: rest => some (['"', '"'], rest)
  | _, '"' :: '"' :: '"' :: '"' :: rest => some (['"'], rest)
  | _, '"' :: '"' :: '"' :: rest => some ([], rest)
  | _, '\\' :: 'x' :: a :: b :: rest =>
    (charOfHex? [a, b]).bind fun x => prepend x (basicLines .text rest)
  | _, '\\' :: 'u' :: a :: b :: c :: d :: rest =>
    (charOfHex? [a, b, c, d]).bind fun x => prepend x (basicLines .text rest)
  | _, '\\' :: 'U' :: a :: b :: c :: d :: e :: f :: g :: h :: rest =>
    (charOfHex? [a, b, c, d, e, f, g, h]).bind fun x => prepend x (basicLines .text rest)
  | _, '\\' :: '\n' :: rest => basicLines .skipping rest
  | _, '\\' :: '\r' :: '\n' :: rest => basicLines .skipping rest
  | _, '\\' :: c :: rest =>
    match escape? c with
    | some x => prepend x (basicLines .text rest)
    | none => if c = ' ' ∨ c = '\t' then basicLines .lineEnd rest else none
  | _, '\r' :: '\n' :: rest => prepend '\r' (prepend '\n' (basicLines .text rest))
  | _, c :: rest =>
    if isForbidden c && c != '\n' then none else prepend c (basicLines .text rest)
  | _, [] => none

/-- The rest of a multi-line literal string. -/
def literalLines : List Char → Option (List Char × List Char)
  | '\'' :: '\'' :: '\'' :: '\'' :: '\'' :: rest => some (['\'', '\''], rest)
  | '\'' :: '\'' :: '\'' :: '\'' :: rest => some (['\''], rest)
  | '\'' :: '\'' :: '\'' :: rest => some ([], rest)
  | '\r' :: '\n' :: rest => prepend '\r' (prepend '\n' (literalLines rest))
  | c :: rest => if isForbidden c && c != '\n' then none else prepend c (literalLines rest)
  | [] => none

/-- A line break right behind the opening quotes of a multi-line string does not count. -/
def dropFirstBreak : List Char → List Char
  | '\n' :: rest => rest
  | '\r' :: '\n' :: rest => rest
  | cs => cs

/-- A string in any spelling. -/
def readString : List Char → Option (String × List Char)
  | '"' :: '"' :: '"' :: rest => text (basicLines .text (dropFirstBreak rest))
  | '"' :: rest => text (basicLine rest)
  | '\'' :: '\'' :: '\'' :: rest => text (literalLines (dropFirstBreak rest))
  | '\'' :: rest => text (literalLine rest)
  | _ => none
where
  text (r : Option (List Char × List Char)) : Option (String × List Char) :=
    r.map fun (cs, rest) => (String.ofList cs, rest)

/-! ## Numbers -/

/-- Digits without the underscores, each of which has to stand between two digits. -/
def digitRun? (isDigit : Char → Bool) : List Char → Option (List Char)
  | [] => none
  | [c] => if isDigit c then some [c] else none
  | c :: '_' :: d :: rest =>
    if isDigit c then (digitRun? isDigit (d :: rest)).map (c :: ·) else none
  | c :: rest => if isDigit c then (digitRun? isDigit rest).map (c :: ·) else none

/-- A run of decimal digits without a needless zero in front. -/
def wholeDigits? (cs : List Char) : Option (List Char) :=
  match digitRun? Char.isDigit cs with
  | some ('0' :: _ :: _) => none
  | r => r

/-- Integers have 128 bits, with or without a sign. -/
def inRange (i : Int) : Bool :=
  -Int.pow 2 127 ≤ i && i < Int.pow 2 128

/-- The value of a run of digits in a base. -/
def baseValue (base : Nat) (isDigit : Char → Bool) (cs : List Char) : Option Int :=
  (digitRun? isDigit cs).map fun ds =>
    (ds.foldl (fun n c => base * n + (hexDigit? c).getD 0) 0 : Nat)

/-- An integer in base ten, or in base 16, 8 or 2 behind a mark for it. -/
def integer? : List Char → Option Int
  | '0' :: 'x' :: cs => baseValue 16 (fun c => (hexDigit? c).isSome) cs
  | '0' :: 'o' :: cs => baseValue 8 (fun c => '0' ≤ c && c ≤ '7') cs
  | '0' :: 'b' :: cs => baseValue 2 (fun c => c == '0' || c == '1') cs
  | cs =>
    let (negative, ds) := Decimal.splitSign cs
    (wholeDigits? ds).map fun ds =>
      let n : Int := Decimal.digitsValue ds
      if negative then -n else n

/-- The exponent of a float, behind the `e`. -/
def exponent? (cs : List Char) : Option Int :=
  let (negative, ds) := Decimal.splitSign cs
  (digitRun? Char.isDigit ds).map fun ds =>
    let n : Int := Decimal.digitsValue ds
    if negative then -n else n

/-- A float has a whole part, and decimals, an exponent or both; or it is a word. Only the word for
it is infinite. -/
def float? (cs : List Char) : Option Float :=
  let (negative, ds) := Decimal.splitSign cs
  match ds with
  | ['i', 'n', 'f'] | ['n', 'a', 'n'] => Decimal.readSpecial? cs
  | _ =>
    let isExponent (c : Char) : Bool := c == 'e' || c == 'E'
    let body := ds.takeWhile fun c => !isExponent c
    let tail := ds.dropWhile fun c => !isExponent c
    let whole := body.takeWhile (· != '.')
    let fraction := body.dropWhile (· != '.')
    if fraction.isEmpty && tail.isEmpty then none
    else do
      let whole ← wholeDigits? whole
      let decimals ← if fraction.isEmpty then some [] else digitRun? Char.isDigit fraction.tail
      let exponent ← if tail.isEmpty then some 0 else exponent? tail.tail
      let x := Decimal.nearest negative (Decimal.digitsValue (whole ++ decimals))
        (exponent - decimals.length)
      if x.isInf then none else some x

/-! ## Dates -/

/-- A number of exactly `width` digits within bounds. -/
def boundedNat? (width lo hi : Nat) (cs : List Char) : Option Nat :=
  match Decimal.readNat? cs with
  | some n => if cs.length = width ∧ lo ≤ n ∧ n ≤ hi then some n else none
  | none => none

/-- Number of days of a month. -/
def monthDays (year month : Nat) : Nat :=
  if month = 2 then
    if year % 4 = 0 ∧ (year % 100 ≠ 0 ∨ year % 400 = 0) then 29 else 28
  else if month ∈ [4, 6, 9, 11] then 30
  else 31

/-- A date such as `1979-05-27`. -/
def isDate (cs : List Char) : Bool :=
  match boundedNat? 4 0 9999 (cs.take 4), boundedNat? 2 1 12 ((cs.drop 5).take 2) with
  | some y, some m =>
    (boundedNat? 2 1 (monthDays y m) (cs.drop 8)).isSome && cs[4]? == some '-' && cs[7]? == some '-'
  | _, _ => false

/-- The seconds of a time, such as `:00` or `:00.5`, which may be left out. -/
def isSeconds : List Char → Bool
  | [] => true
  | ':' :: a :: b :: fraction =>
    (boundedNat? 2 0 60 [a, b]).isSome &&
      match fraction with
      | [] => true
      | '.' :: digits => (Decimal.readNat? digits).isSome
      | _ => false
  | _ => false

/-- A time such as `07:32` or `07:32:00.5`. -/
def isTime (cs : List Char) : Bool :=
  (boundedNat? 2 0 23 (cs.take 2)).isSome && cs[2]? == some ':' &&
    (boundedNat? 2 0 59 ((cs.drop 3).take 2)).isSome && isSeconds (cs.drop 5)

/-- The difference of a time from universal time, such as `Z` or `-07:00`. -/
def isOffset : List Char → Bool
  | ['Z'] | ['z'] => true
  | sign :: rest =>
    (sign == '+' || sign == '-') && (boundedNat? 2 0 23 (rest.take 2)).isSome &&
      rest[2]? == some ':' && (boundedNat? 2 0 59 (rest.drop 3)).isSome
  | [] => false

/-- A time, with or without an offset. -/
def isTimeWithOffset (cs : List Char) : Bool :=
  let isTimePart (c : Char) : Bool := c.isDigit || c == ':' || c == '.'
  let offset := cs.dropWhile isTimePart
  isTime (cs.takeWhile isTimePart) && (offset.isEmpty || isOffset offset)

/-- A date, a time, or a date and a time with or without an offset. -/
def isDatetime (cs : List Char) : Bool :=
  isDate cs || isTime cs ||
    (isDate (cs.take 10) && (cs[10]?.any fun c => c == 'T' || c == 't' || c == ' ') &&
      isTimeWithOffset (cs.drop 11))

/-! ## Any scalar but a string -/

/-- Characters of numbers, dates and words. -/
def isTokenChar (c : Char) : Bool :=
  c.isAlphanum || c == '+' || c == '-' || c == '.' || c == '_' || c == ':'

/-- The characters of the next scalar and the rest. A blank may stand between a date and a time. -/
def splitToken (cs : List Char) : List Char × List Char :=
  let token := cs.takeWhile isTokenChar
  let rest := cs.dropWhile isTokenChar
  match rest with
  | ' ' :: after =>
    let time := after.takeWhile isTokenChar
    if isDate token && !time.isEmpty && isDatetime (token ++ ' ' :: time) then
      (token ++ ' ' :: time, after.dropWhile isTokenChar)
    else (token, rest)
  | _ => (token, rest)

/-- The scalar that a run of characters stands for. -/
def scalar? (cs : List Char) : Option Value :=
  if cs = "true".toList then some (.boolean true)
  else if cs = "false".toList then some (.boolean false)
  else
    match integer? cs with
    | some i => if inRange i then some (.integer i) else none
    | none =>
      match float? cs with
      | some x => some (.float x)
      | none => if isDatetime cs then some (.datetime (String.ofList cs)) else none

end DanglingBonds.Toml
