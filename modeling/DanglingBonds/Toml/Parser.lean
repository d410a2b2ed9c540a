/-
# Reading TOML

The grammar of TOML 1.1 documents. A reader returns what it has read and the rest of the text. Texts
that are no TOML document are refused without a reason.
-/
import DanglingBonds.Toml.Document
import DanglingBonds.Toml.Scalar

namespace DanglingBonds.Toml

/-! ## Blanks and comments -/

/-- The text behind blanks on the same line. -/
def skipSpace (cs : List Char) : List Char :=
  cs.dropWhile fun c => c == ' ' || c == '\t'

/-- The end of the line, behind the rest of a comment. A carriage return belongs to the line break
behind it and stands nowhere else. -/
def skipRemark : List Char → Option (List Char)
  | [] => some []
  | '\n' :: rest => some ('\n' :: rest)
  | '\r' :: '\n' :: rest => some ('\r' :: '\n' :: rest)
  | c :: rest => if isForbidden c then none else skipRemark rest

/-- The text behind a comment, if there is one here; a comment ends with its line. -/
def skipComment : List Char → Option (List Char)
  | '#' :: rest => skipRemark rest
  | cs => some cs

/-- The text behind the end of a line, or the end of the text. -/
def lineEnd : List Char → Option (List Char)
  | [] => some []
  | '\n' :: rest => some rest
  | '\r' :: '\n' :: rest => some rest
  | _ => none

/-- Skips blanks, comments and line breaks; `inComment` says whether the text starts within a
comment. -/
def skipFrom : Bool → List Char → Option (List Char)
  | _, [] => some []
  | _, '\n' :: rest => skipFrom false rest
  | _, '\r' :: '\n' :: rest => skipFrom false rest
  | true, c :: rest => if isForbidden c then none else skipFrom true rest
  | false, c :: rest =>
    if c == ' ' || c == '\t' then skipFrom false rest
    else if c == '#' then skipFrom true rest
    else some (c :: rest)

/-- Skips whatever may stand between statements, and between the items of arrays and inline
tables. -/
def skipBetween (cs : List Char) : Option (List Char) :=
  skipFrom false cs

/-! ## Keys -/

def isKeyChar (c : Char) : Bool :=
  c.isAlphanum || c == '_' || c == '-'

/-- One part of a key: bare, or a string on one line. -/
def simpleKey : List Char → Option (String × List Char)
  | '"' :: rest => (basicLine rest).map fun (cs, rest) => (String.ofList cs, rest)
  | '\'' :: rest => (literalLine rest).map fun (cs, rest) => (String.ofList cs, rest)
  | cs =>
    let key := cs.takeWhile isKeyChar
    if key.isEmpty then none else some (String.ofList key, cs.dropWhile isKeyChar)

/-- A key of at most `fuel` parts with points between them. -/
def dottedKey : Nat → List Char → Option (List String × List Char)
  | 0, _ => none
  | fuel + 1, cs => do
    let (key, rest) ← simpleKey (skipSpace cs)
    match skipSpace rest with
    | '.' :: rest => do
      let (path, rest) ← dottedKey fuel rest
      return (key :: path, rest)
    | rest => return ([key], rest)

/-- Number of parts that a key has at most. -/
def maxKeyParts : Nat := 80

/-- A key. -/
def readKey (cs : List Char) : Option (List String × List Char) :=
  dottedKey maxKeyParts cs

/-! ## Values -/

/-- Number of arrays and inline tables that may be open at once. -/
def maxDepth : Nat := 80

mutual

/-- A value with at most `depth` arrays and inline tables in one another; `fuel` bounds its
length. -/
def valueWithin : Nat → Nat → List Char → Option (Value × List Char)
  | _, 0, _ => none
  | depth, fuel + 1, cs =>
    match depth, cs with
    | depth + 1, '[' :: rest => do
      let (items, rest) ← arrayWithin depth fuel (← skipBetween rest)
      return (.array items, rest)
    | depth + 1, '\x7b' :: rest => do
      let (entries, rest) ← inlineWithin depth fuel [] (← skipBetween rest)
      return (.table (entriesToValues entries), rest)
    | 0, '[' :: _ => none
    | 0, '\x7b' :: _ => none
    | _, '"' :: _ | _, '\'' :: _ => (readString cs).map fun (s, rest) => (.string s, rest)
    | _, _ =>
      let (token, rest) := splitToken cs
      (scalar? token).map fun v => (v, rest)

/-- The rest of an array. A comma may stand behind the last item. -/
def arrayWithin : Nat → Nat → List Char → Option (List Value × List Char)
  | _, 0, _ => none
  | depth, fuel + 1, cs =>
    match cs with
    | ']' :: rest => some ([], rest)
    | _ => do
      let (v, rest) ← valueWithin depth fuel cs
      match ← skipBetween rest with
      | ',' :: rest =>
        let (vs, rest) ← arrayWithin depth fuel (← skipBetween rest)
        return (v :: vs, rest)
      | ']' :: rest => return ([v], rest)
      | _ => none

/-- The rest of an inline table, behind `entries`. Like an array it may run over several lines, and
a comma may stand behind its last entry; only a key stays on its line. -/
def inlineWithin : Nat → Nat → Entries → List Char → Option (Entries × List Char)
  | _, 0, _, _ => none
  | depth, fuel + 1, entries, cs =>
    match cs with
    | '\x7d' :: rest => some (entries, rest)
    | _ => do
      let (path, rest) ← readKey cs
      match ← skipBetween rest with
      | '=' :: rest =>
        let (v, rest) ← valueWithin depth fuel (← skipBetween rest)
        let entries ← assign v path entries
        match ← skipBetween rest with
        | ',' :: rest => inlineWithin depth fuel entries (← skipBetween rest)
        | '\x7d' :: rest => return (entries, rest)
        | _ => none
      | _ => none

end

/-- A value. -/
def readValue (cs : List Char) : Option (Value × List Char) :=
  valueWithin maxDepth (cs.length + 1) cs

/-! ## Documents -/

/-- One line of a document that says something. -/
inductive Statement where
  | table (path : List String)
  | arrayTable (path : List String)
  | pair (path : List String) (v : Value)

/-- A statement, without blanks before it. -/
def readStatement : List Char → Option (Statement × List Char)
  | '[' :: '[' :: rest => do
    let (path, rest) ← readKey rest
    match rest with
    | ']' :: ']' :: rest => return (.arrayTable path, rest)
    | _ => none
  | '[' :: rest => do
    let (path, rest) ← readKey rest
    match rest with
    | ']' :: rest => return (.table path, rest)
    | _ => none
  | cs => do
    let (path, rest) ← readKey cs
    match rest with
    | '=' :: rest =>
      let (v, rest) ← readValue (skipSpace rest)
      return (.pair path v, rest)
    | _ => none

/-- The statements of a text, at most `fuel` of them, each on a line of its own. -/
def statementsWithin : Nat → List Char → Option (List Statement)
  | 0, _ => none
  | fuel + 1, cs => do
    match ← skipBetween cs with
    | [] => return []
    | cs =>
      let (s, rest) ← readStatement cs
      let rest ← lineEnd (← skipComment (skipSpace rest))
      let ss ← statementsWithin fuel rest
      return s :: ss

/-- Carries out statements on a document; `current` is the path of the last header. -/
def run (current : List String) : List Statement → Entries → Option Entries
  | [], doc => some doc
  | .table path :: rest, doc => do
    let key ← path.getLast?
    run path rest (← atPath (defineTable key) path.dropLast doc)
  | .arrayTable path :: rest, doc => do
    let key ← path.getLast?
    run path rest (← atPath (appendTable key) path.dropLast doc)
  | .pair path v :: rest, doc => do
    run current rest (← atPath (assign v path) current doc)

/-- The entries of a document. -/
def parse (s : String) : Option (List (String × Value)) :=
  let cs :=
    match s.toList with
    | '\ufeff' :: cs => cs
    | cs => cs
  do
    let statements ← statementsWithin (cs.length + 1) cs
    return entriesToValues (← run [] statements [])

end DanglingBonds.Toml
