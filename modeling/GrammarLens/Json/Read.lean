import GrammarLens.Json
import GrammarLens.Text.Chars

/-! # Reading JSON text

The texts of the JSON format, with two liberties: the names `NaN`, `Infinity` and `-Infinity` are
numbers, and of several fields with one name the last value counts, at the place of the first.  An
integer may have no more than a certain number of digits. -/

namespace GrammarLens.Json

/-- Why a text cannot be read. -/
inductive ReadError where
  /-- It is not of the format. -/
  | malformed
  /-- An integer has this many digits, which are too many. -/
  | hugeInteger (digits : Nat)
deriving DecidableEq, Repr

/-- How many digits an integer may have. -/
def maxDigits : Nat := 4300

/-- The wording of a reading error. -/
def ReadError.message : ReadError → String
  | malformed => "the text is not JSON"
  | hugeInteger digits =>
    s!"Exceeds the limit ({maxDigits} digits) for integer string conversion: value has {digits} " ++
      "digits; use sys.set_int_max_str_digits() to increase the limit"

/-- The text after the blanks of the format. -/
def skipSpace (cs : List Char) : List Char :=
  cs.dropWhile fun c => c == ' ' || c == '\t' || c == '\n' || c == '\r'

/-- The value of four hexadecimal digits. -/
def hexValue4? (a b c d : Char) : Option Nat := do
  return (← hexValue? a) * 4096 + (← hexValue? b) * 256 + (← hexValue? c) * 16 + (← hexValue? d)

/-- The character with a code, if there is one, and else the replacement character. -/
def charOfCode (n : Nat) : Char := if n.isValidChar then Char.ofNat n else '�'

/-- The character that two halves of a pair stand for. -/
def pairedChar? (high low : Nat) : Option Char :=
  if 0xd800 ≤ high ∧ high < 0xdc00 ∧ 0xdc00 ≤ low ∧ low < 0xe000 then
    some (charOfCode (0x10000 + (high - 0xd800) * 0x400 + (low - 0xdc00)))
  else none

/-- The characters that some codes stand for; the codes of two halves of a pair stand for one. -/
def charsOfCodes : List Nat → List Char
  | [] => []
  | [n] => [charOfCode n]
  | high :: low :: codes =>
    match pairedChar? high low with
    | some c => c :: charsOfCodes codes
    | none => charOfCode high :: charsOfCodes (low :: codes)

/-- The character that a letter after a backslash stands for. -/
def escaped? : Char → Option Char
  | '"' => some '"'
  | '\\' => some '\\'
  | '/' => some '/'
  | 'b' => some '\x08'
  | 'f' => some '\x0c'
  | 'n' => some '\n'
  | 'r' => some '\r'
  | 't' => some '\t'
  | _ => none

/-- Reads the codes of a text after its opening quote, and the closing one. -/
def readCodes : List Char → Option (List Nat × List Char)
  | [] => none
  | '"' :: rest => some ([], rest)
  | '\\' :: 'u' :: a :: b :: c :: d :: rest =>
    match hexValue4? a b c d with
    | some n => (readCodes rest).map fun r => (n :: r.1, r.2)
    | none => none
  | '\\' :: e :: rest =>
    match escaped? e with
    | some c => (readCodes rest).map fun r => (c.toNat :: r.1, r.2)
    | none => none
  | c :: rest =>
    if c.toNat < 0x20 then none else (readCodes rest).map fun r => (c.toNat :: r.1, r.2)

/-- Reads a text after its opening quote, and the closing one. -/
def readText (cs : List Char) : Except ReadError (String × List Char) :=
  match readCodes cs with
  | some (codes, rest) => .ok (String.ofList (charsOfCodes codes), rest)
  | none => .error .malformed

/-- The digits that a text starts with, and the text after them. -/
def digits (cs : List Char) : List Char × List Char :=
  (cs.takeWhile (·.isDigit), cs.dropWhile (·.isDigit))

/-- The digits of an integer: a zero stands alone. -/
def wholeDigits : List Char → List Char × List Char
  | '0' :: rest => (['0'], rest)
  | cs => digits cs

/-- The digits after a decimal point, if a text starts with one, and the text after them. -/
def fraction : List Char → List Char × List Char
  | '.' :: rest => if (digits rest).1.isEmpty then ([], '.' :: rest) else digits rest
  | cs => ([], cs)

/-- Whether a text starts with a minus sign, and the text after its sign. -/
def sign : List Char → Bool × List Char
  | '+' :: rest => (false, rest)
  | '-' :: rest => (true, rest)
  | cs => (false, cs)

/-- An integer with a sign. -/
def signed (negative : Bool) (n : Nat) : Int := if negative then -n else n

/-- The power of ten that a text starts with, if it starts with one, and the text after it. -/
def exponent : List Char → Option Int × List Char
  | [] => (none, [])
  | e :: rest =>
    if e == 'e' || e == 'E' then
      let (negative, unsigned) := sign rest
      let (power, after) := digits unsigned
      if power.isEmpty then (none, e :: rest)
      else (some (signed negative (natOfDigits power)), after)
    else (none, e :: rest)

/-- Reads a number after its minus sign, if it has one. -/
def readNumber (negative : Bool) (cs : List Char) : Except ReadError (Json × List Char) :=
  let (whole, rest) := wholeDigits cs
  if whole.isEmpty then .error .malformed
  else
    let (decimals, rest) := fraction rest
    let (power, rest) := exponent rest
    if decimals.isEmpty && power.isNone then
      if maxDigits < whole.length then .error (.hugeInteger whole.length)
      else .ok (int (signed negative (natOfDigits whole)), rest)
    else
      let all := whole ++ decimals
      .ok (real (.ofDecimal negative (natOfDigits all) all.length
        (power.getD 0 - decimals.length)), rest)

/-- The fields with one more in front; a later field of the same name gives it its value. -/
def consField (name : String) (v : Json) (fields : List (String × Json)) : List (String × Json) :=
  (name, (lookup name fields).getD v) :: fields.filter (·.1 != name)

mutual

/-- Reads a value, with at most `fuel` steps into its parts. -/
def readValue (fuel : Nat) (cs : List Char) : Except ReadError (Json × List Char) :=
  match fuel with
  | 0 => .error .malformed
  | fuel + 1 =>
    match cs with
    | '"' :: rest => (readText rest).map fun r => (text r.1, r.2)
    | '{' :: rest =>
      match skipSpace rest with
      | '}' :: after => .ok (object [], after)
      | after => (readFields fuel after).map fun r => (object r.1, r.2)
    | '[' :: rest =>
      match skipSpace rest with
      | ']' :: after => .ok (list [], after)
      | after => (readItems fuel after).map fun r => (list r.1, r.2)
    | 'n' :: 'u' :: 'l' :: 'l' :: rest => .ok (null, rest)
    | 't' :: 'r' :: 'u' :: 'e' :: rest => .ok (bool true, rest)
    | 'f' :: 'a' :: 'l' :: 's' :: 'e' :: rest => .ok (bool false, rest)
    | 'N' :: 'a' :: 'N' :: rest => .ok (real .nan, rest)
    | 'I' :: 'n' :: 'f' :: 'i' :: 'n' :: 'i' :: 't' :: 'y' :: rest => .ok (real (.infinite false), rest)
    | '-' :: 'I' :: 'n' :: 'f' :: 'i' :: 'n' :: 'i' :: 't' :: 'y' :: rest =>
      .ok (real (.infinite true), rest)
    | '-' :: rest => readNumber true rest
    | _ => readNumber false cs

/-- Reads the elements of a list up to its closing bracket. -/
def readItems (fuel : Nat) (cs : List Char) : Except ReadError (List Json × List Char) :=
  match fuel with
  | 0 => .error .malformed
  | fuel + 1 => do
    let (v, rest) ← readValue fuel cs
    match skipSpace rest with
    | ']' :: after => return ([v], after)
    | ',' :: after =>
      let (items, after) ← readItems fuel (skipSpace after)
      return (v :: items, after)
    | _ => .error .malformed

/-- Reads the fields of an object up to its closing brace. -/
def readFields (fuel : Nat) (cs : List Char) :
    Except ReadError (List (String × Json) × List Char) :=
  match fuel with
  | 0 => .error .malformed
  | fuel + 1 =>
    match cs with
    | '"' :: rest => do
      let (name, rest) ← readText rest
      match skipSpace rest with
      | ':' :: rest =>
        let (v, rest) ← readValue fuel (skipSpace rest)
        match skipSpace rest with
        | '}' :: after => return ([(name, v)], after)
        | ',' :: after =>
          let (fields, after) ← readFields fuel (skipSpace after)
          return (consField name v fields, after)
        | _ => .error .malformed
      | _ => .error .malformed
    | _ => .error .malformed

end

/-- The value that a text spells.  Each step into a part of a value is paid for by a character, so
the fuel never runs out. -/
def read (cs : List Char) : Except ReadError Json := do
  let (v, rest) ← readValue (2 * cs.length + 2) (skipSpace cs)
  if (skipSpace rest).isEmpty then return v else .error .malformed

end GrammarLens.Json
