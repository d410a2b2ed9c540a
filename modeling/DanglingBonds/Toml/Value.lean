/-
# TOML values

The data model of TOML: scalars, arrays, and tables whose entries keep the order of the text.
-/
namespace DanglingBonds.Toml

/-- A value of a document. -/
inductive Value where
  | string (s : String)
  | integer (i : Int)
  | float (x : Float)
  | boolean (b : Bool)
  /-- A date, a time or both, as written. -/
  | datetime (text : String)
  | array (items : List Value)
  | table (entries : List (String × Value))
  deriving Inhabited

/-- The value of a key in a list of entries. -/
def lookup? {β : Type} (key : String) (entries : List (String × β)) : Option β :=
  (entries.find? fun e => e.1 == key).map (·.2)

end DanglingBonds.Toml
