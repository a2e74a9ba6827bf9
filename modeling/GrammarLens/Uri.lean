import GrammarLens.Path
import GrammarLens.Text.Utf8
import GrammarLens.Uri.Host

/-! # File URIs

A file URI is the word `file`, a host, which is not used, and the path with its bytes escaped.
Letters, digits, the slash and the marks `_.-~` stand for themselves and every other byte is a
percent sign with two hexadecimal digits. -/

namespace GrammarLens

/-- Why a URI names no file. -/
inductive UriError where
  | notAFile (uri : String)
  | host (error : HostError)
deriving DecidableEq, Repr

/-- The wording of a URI error. -/
def UriError.message : UriError → String
  | notAFile uri => s!"Only file URIs are supported, got: {uri}"
  | host error => error.message

namespace Uri

/-! ### Percent escapes -/

/-- Whether a byte stands for itself in a URI. -/
def isPlain (byte : UInt8) : Bool :=
  let c := Char.ofNat byte.toNat
  c.isAlphanum || c == '_' || c == '.' || c == '-' || c == '~' || c == '/'

/-- A hexadecimal digit in upper case. -/
def upperHexDigit (n : Nat) : Char := (hexDigit n).toUpper

/-- A byte as it stands in a URI. -/
def escapeByte (byte : UInt8) : List Char :=
  if isPlain byte then [Char.ofNat byte.toNat]
  else ['%', upperHexDigit (byte.toNat / 16), upperHexDigit (byte.toNat % 16)]

/-- A text with its bytes escaped. -/
def escape (cs : List Char) : List Char := (Utf8.encode cs).flatMap escapeByte

/-- The value of two hexadecimal digits. -/
def hexByte? (a b : Char) : Option UInt8 := do
  return UInt8.ofNat ((← hexValue? a) * 16 + (← hexValue? b))

/-- The bytes that a text with escapes stands for.  A percent sign without digits stands for
itself. -/
def unescapeBytes : List Char → List UInt8
  | [] => []
  | '%' :: a :: b :: cs =>
    match hexByte? a b with
    | some byte => byte :: unescapeBytes cs
    | none => Utf8.encodeChar '%' ++ unescapeBytes (a :: b :: cs)
  | c :: cs => Utf8.encodeChar c ++ unescapeBytes cs

/-- The text that a text with escapes stands for. -/
def unescape (cs : List Char) : List Char := Utf8.decodeLossy (unescapeBytes cs)

/-! ### Parts of a URI -/

/-- The URI without what is never part of one: controls and spaces in front, and tabs and line ends
anywhere. -/
def clean (cs : List Char) : List Char :=
  (cs.dropWhile (·.toNat ≤ 0x20)).filter fun c => c != '\t' && c != '\r' && c != '\n'

/-- Whether a character can stand in the scheme of a URI. -/
def isSchemeChar (c : Char) : Bool := c.isAlphanum || c == '+' || c == '-' || c == '.'

/-- The scheme of a URI in lower case, and what comes after its colon. -/
def splitScheme (cs : List Char) : List Char × List Char :=
  let scheme := cs.takeWhile (· != ':')
  match cs.drop scheme.length with
  | [] => ([], cs)
  | _ :: rest =>
    if scheme.head?.any (·.isAlpha) && scheme.all isSchemeChar then
      (scheme.map (·.toLower), rest)
    else ([], cs)

/-- Whether a character can stand in a host. -/
def isHostChar (c : Char) : Bool := c != '/' && c != '?' && c != '#'

/-- The host, if there is one. -/
def hostPart : List Char → List Char
  | '/' :: '/' :: rest => rest.takeWhile isHostChar
  | _ => []

/-- What comes after the host, if there is one. -/
def dropHost : List Char → List Char
  | '/' :: '/' :: rest => rest.dropWhile isHostChar
  | cs => cs

/-- The path of a URI without its scheme: neither the host nor a query nor a fragment is part of
it. -/
def pathPart (cs : List Char) : List Char :=
  ((dropHost cs).takeWhile (· != '#')).takeWhile (· != '?')

/-- The path of the file that a URI names.  The host is checked before the scheme. -/
def toPath (uri : String) : Except UriError Path := do
  let (scheme, rest) := splitScheme (clean uri.toList)
  (checkHost (hostPart rest)).mapError .host
  if scheme = ['f', 'i', 'l', 'e'] then return Path.ofChars (unescape (pathPart rest))
  else .error (.notAFile uri)

/-- The URI of a file, when `directory` is where relative paths start. -/
def ofPath (path directory : Path) : Except PathError String := do
  return "file://" ++ String.ofList (escape (← path.resolve directory).render.toList)

end Uri

end GrammarLens
