/-
# Comma-separated records

Records of fields with a comma between two fields and a line for each record. A field with a comma,
a quote or a line break in it is quoted, and its quotes are doubled.
-/
namespace DanglingBonds.Records

/-- Whether a field is written in quotes. -/
def needsQuotes (field : String) : Bool :=
  field.toList.any fun c => c == ',' || c == '"' || c == '\n' || c == '\r'

/-- A field as it is written. -/
def fieldText (field : String) : String :=
  if needsQuotes field then
    String.ofList ('"' ::
      (field.toList.flatMap fun c => if c = '"' then ['"', '"'] else [c]) ++ ['"'])
  else field

/-- A record as it is written, without the line break behind it. -/
def recordText (fields : List String) : String :=
  String.intercalate "," (fields.map fieldText)

/-- A file of records. -/
def text (records : List (List String)) : String :=
  String.join (records.map fun r => recordText r ++ "\n")

end DanglingBonds.Records
