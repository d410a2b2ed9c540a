/-
# TOML documents

The tables of a document while it is read. TOML lets a table be written in pieces, but each piece
only once: a header defines a table, dotted keys define the tables they pass, and neither may add to
what the other, an array or an inline table has closed.
-/
import DanglingBonds.Toml.Value

namespace DanglingBonds.Toml

/-- How a table came to be. -/
inductive Origin where
  /-- By a header of its own. -/
  | header
  /-- As part of a longer header. -/
  | implied
  /-- By a dotted key. -/
  | dotted
  deriving DecidableEq

/-- An entry of a document. -/
inductive Item where
  | value (v : Value)
  | table (entries : List (String × Item)) (origin : Origin)
  /-- An array of tables by headers, the last first. -/
  | tables (ts : List (List (String × Item)))

abbrev Entries := List (String × Item)

/-- Replaces the item of a key. -/
def replace (key : String) (item : Item) (entries : Entries) : Entries :=
  entries.map fun e => if e.1 == key then (key, item) else e

/-- Changes the table at the end of a path of headers; missing tables on the way are made. -/
def atPath (change : Entries → Option Entries) : List String → Entries → Option Entries
  | [], entries => change entries
  | key :: path, entries =>
    match lookup? key entries with
    | none => (atPath change path []).map fun sub => entries ++ [(key, .table sub .implied)]
    | some (.table sub origin) =>
      (atPath change path sub).map fun sub => replace key (.table sub origin) entries
    | some (.tables (last :: earlier)) =>
      (atPath change path last).map fun last => replace key (.tables (last :: earlier)) entries
    | some (.tables []) => none
    | some (.value _) => none

/-- Defines the table `key` by a header. -/
def defineTable (key : String) (entries : Entries) : Option Entries :=
  match lookup? key entries with
  | none => some (entries ++ [(key, .table [] .header)])
  | some (.table sub .implied) => some (replace key (.table sub .header) entries)
  | some _ => none

/-- Adds a table to the array of tables `key`. -/
def appendTable (key : String) (entries : Entries) : Option Entries :=
  match lookup? key entries with
  | none => some (entries ++ [(key, .tables [[]])])
  | some (.tables ts) => some (replace key (.tables ([] :: ts)) entries)
  | some _ => none

/-- Adds the value of a key that is not there yet. -/
def addValue (key : String) (v : Value) (entries : Entries) : Option Entries :=
  match lookup? key entries with
  | none => some (entries ++ [(key, .value v)])
  | some _ => none

/-- Sets a value under the rest of a dotted key. The key may pass tables of other dotted keys,
tables that longer headers imply and the last table of an array. Only a table of dotted keys gets
the value itself: whether the table that is reached may get it is what `isOpen` says. -/
def assignBelow (v : Value) : Bool → List String → Entries → Option Entries
  | _, [], _ => none
  | isOpen, [key], entries => if isOpen then addValue key v entries else none
  | _, key :: path, entries =>
    match lookup? key entries with
    | none => (assignBelow v true path []).map fun sub => entries ++ [(key, .table sub .dotted)]
    | some (.table _ .header) => none
    | some (.table sub origin) =>
      (assignBelow v (decide (origin = .dotted)) path sub).map fun sub =>
        replace key (.table sub origin) entries
    | some (.tables (last :: earlier)) =>
      (assignBelow v false path last).map fun last =>
        replace key (.tables (last :: earlier)) entries
    | some (.tables []) => none
    | some (.value _) => none

/-- Sets a value under a dotted key, seen from the table that the key is written in. No key is set
twice. -/
def assign (v : Value) (path : List String) (entries : Entries) : Option Entries :=
  assignBelow v true path entries

mutual

/-- The finished value of an item. -/
def Item.toValue : Item → Value
  | .value v => v
  | .table entries _ => .table (entriesToValues entries)
  | .tables ts => .array (tablesToValues ts).reverse

def entriesToValues : Entries → List (String × Value)
  | [] => []
  | (key, item) :: rest => (key, item.toValue) :: entriesToValues rest

def tablesToValues : List Entries → List Value
  | [] => []
  | t :: rest => .table (entriesToValues t) :: tablesToValues rest

end

end DanglingBonds.Toml
