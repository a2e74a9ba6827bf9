import GrammarLens.Double.Shortest
import GrammarLens.Text.Printable
import GrammarLens.Text.Search

/-! # Values without a fixed type

Settings and requests come from outside as values of the JSON data model, with no promise about
their types.  A `Json` value keeps the fields of an object in their order.  Each way of using a
value has a cause of failure, so that a wrong type in the settings is told apart from a wrong
grammar file.

Truth and falsehood count as the numbers one and zero wherever values are compared. -/

namespace GrammarLens

/-- A value of the JSON data model.  A number is whole or one of 64 bits. -/
inductive Json where
  | null
  | bool (b : Bool)
  | int (n : Int)
  | real (x : Double)
  | text (s : String)
  | list (items : List Json)
  | object (fields : List (String × Json))
deriving Repr, Inhabited

/-- Why a value cannot be used in some way. -/
inductive Json.Fault where
  /-- It holds nothing, so it cannot be asked for a member. -/
  | noMembers
  /-- Its members have no names. -/
  | noNames
  /-- It is no object, so it has no optional fields. -/
  | noFields
  /-- It cannot be gone through element by element. -/
  | noElements
  /-- It cannot be a member of a set or a key. -/
  | noKey
  /-- It is no text, where a document is needed. -/
  | noDocument
  /-- It is no text, where a path is needed. -/
  | noPath
  /-- It is no text, where one is sent to a client. -/
  | noText
  /-- It is no text, where the start of a name is needed. -/
  | noNameStart
  /-- It is no integer. -/
  | noInteger
  /-- It has no place in an order with the others. -/
  | noOrder
deriving DecidableEq, Repr

namespace Json

/-- Whether a value counts as true: all but nothing, falsehood, zero and what is empty. -/
def isTrue : Json → Bool
  | null => false
  | bool b => b
  | int n => n != 0
  | real x => x.isTrue
  | text s => !s.isEmpty
  | list items => !items.isEmpty
  | object fields => !fields.isEmpty

/-- The integer that a value counts as. -/
def int? : Json → Option Int
  | bool b => some (if b then 1 else 0)
  | int n => some n
  | _ => none

/-- The number that a value counts as. -/
def number? : Json → Option Number
  | real x => some (.double x)
  | v => v.int?.map .whole

/-- The text that a value is. -/
def text? : Json → Option String
  | text s => some s
  | _ => none

/-- Whether a value is the text `s`. -/
def isText (s : String) (v : Json) : Bool := v.text? == some s

/-- The value of the field `name` among some fields. -/
def lookup (name : String) : List (String × Json) → Option Json
  | [] => none
  | (key, v) :: fields => if key == name then some v else lookup name fields

/-- Whether a value has `name` in it: an object as a field, a list as an element, a text as a
part. -/
def mentions (name : String) : Json → Except Fault Bool
  | object fields => .ok (lookup name fields).isSome
  | list items => .ok (items.any (·.isText name))
  | text s => .ok (occursIn name.toList s.toList)
  | _ => .error .noMembers

/-- The field `name` of an object, which has to be there. -/
def field (name : String) : Json → Except Fault Json
  | object fields =>
    match lookup name fields with
    | some v => .ok v
    | none => .error .noNames
  | _ => .error .noNames

/-- The field `name` of an object, or `default` if there is none. -/
def fieldD (v : Json) (name : String) (default : Json) : Except Fault Json :=
  match v with
  | object fields => .ok ((lookup name fields).getD default)
  | _ => .error .noFields

/-- The elements of a value: those of a list, the characters of a text, the names of the fields of
an object. -/
def elements : Json → Except Fault (List Json)
  | list items => .ok items
  | text s => .ok (s.toList.map fun c => text (String.singleton c))
  | object fields => .ok (fields.map fun f => text f.1)
  | _ => .error .noElements

/-- A value that can be a key: anything but a list or an object. -/
def key : Json → Except Fault Json
  | list _ => .error .noKey
  | object _ => .error .noKey
  | v => .ok v

mutual

/-- Whether two values are equal: objects with the same fields in any order, and truth with the
number one, whole or not. -/
def same : Json → Json → Bool
  | null, null => true
  | text a, text b => a == b
  | list as, list bs => sameItems as bs
  | object as, object bs => as.length == bs.length && sameFields as bs
  | a, b =>
    match a.number?, b.number? with
    | some n, some m => n.same m
    | _, _ => false

/-- Whether two lists have equal elements in the same order. -/
def sameItems : List Json → List Json → Bool
  | [], [] => true
  | a :: as, b :: bs => same a b && sameItems as bs
  | _, _ => false

/-- Whether each of some fields is among others. -/
def sameFields : List (String × Json) → List (String × Json) → Bool
  | [], _ => true
  | (name, a) :: as, bs =>
    (match lookup name bs with
    | some b => same a b
    | none => false) && sameFields as bs

end

instance : BEq Json := ⟨same⟩

mutual

/-- How a value is written inside a list or an object. -/
def spell : Json → String
  | null => "None"
  | bool b => if b then "True" else "False"
  | int n => toString n
  | real x => x.render
  | text s => quoted s
  | list items => "[" ++ ", ".intercalate (spellItems items) ++ "]"
  | object fields => "\x7b" ++ ", ".intercalate (spellFields fields) ++ "\x7d"

/-- How the elements of a list are written. -/
def spellItems : List Json → List String
  | [] => []
  | v :: items => v.spell :: spellItems items

/-- How the fields of an object are written. -/
def spellFields : List (String × Json) → List String
  | [] => []
  | (name, v) :: fields => (quoted name ++ ": " ++ v.spell) :: spellFields fields

end

/-- How a value is written in a message: a text stands for itself. -/
def render : Json → String
  | text s => s
  | v => v.spell

end Json

end GrammarLens
