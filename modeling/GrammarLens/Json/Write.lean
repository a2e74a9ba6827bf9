import GrammarLens.Json

/-! # Writing JSON text

The text of a value on one line.  Reading it gives the value back; the infinities and what is no
number have the names that reading knows. -/

namespace GrammarLens.Json

/-- A character as it stands in a text of the format. -/
def writeChar (c : Char) : List Char :=
  if c = '"' ∨ c = '\\' then ['\\', c]
  else if c.toNat < 0x20 then '\\' :: 'u' :: hexDigits 4 c.toNat
  else [c]

/-- A text in the double quotes of the format. -/
def writeText (s : String) : String :=
  String.ofList ('"' :: s.toList.flatMap writeChar ++ ['"'])

/-- A number of 64 bits in the format. -/
def writeDouble : Double → String
  | .nan => "NaN"
  | .infinite negative => if negative then "-Infinity" else "Infinity"
  | x => x.render

mutual

/-- The text of a value. -/
def write : Json → String
  | null => "null"
  | bool b => if b then "true" else "false"
  | int n => toString n
  | real x => writeDouble x
  | text s => writeText s
  | list items => "[" ++ ",".intercalate (writeItems items) ++ "]"
  | object fields => "\x7b" ++ ",".intercalate (writeFields fields) ++ "\x7d"

/-- The texts of the elements of a list. -/
def writeItems : List Json → List String
  | [] => []
  | v :: items => v.write :: writeItems items

/-- The texts of the fields of an object. -/
def writeFields : List (String × Json) → List String
  | [] => []
  | (name, v) :: fields => (writeText name ++ ":" ++ v.write) :: writeFields fields

end

end GrammarLens.Json
