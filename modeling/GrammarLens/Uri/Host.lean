import GrammarLens.Text.Chars
import GrammarLens.Text.Printable
import GrammarLens.Text.Search

/-! # Hosts

The part of a URI that names a host: a user before the last `@`, an address, and a port after a
colon.  It is not used, but it has to be sound.  Where there are brackets, they enclose the address
and nothing else, which is of the sixth version or announces a later one; and no character is
another spelling of a mark that separates the parts of a URI. -/

namespace GrammarLens

/-- Why a text is no host. -/
inductive HostError where
  /-- The brackets do not enclose the address and nothing else. -/
  | brackets
  /-- An address of a later version is not written as it should be. -/
  | laterVersion
  /-- There are brackets and no address. -/
  | noAddress (text : String)
  /-- There are brackets and an address of the fourth version. -/
  | fourthVersion
  /-- A character is another spelling of a mark that separates parts. -/
  | ambiguous (host : String)
deriving DecidableEq, Repr

/-- The wording of a host error. -/
def HostError.message : HostError → String
  | brackets => "Invalid IPv6 URL"
  | laterVersion => "IPvFuture address is invalid"
  | noAddress text => s!"{quoted text} does not appear to be an IPv4 or IPv6 address"
  | fourthVersion => "An IPv4 address cannot be in brackets"
  | ambiguous host => s!"netloc '{host}' contains invalid characters under NFKC normalization"

namespace Uri

/-! ### Addresses -/

/-- Whether a text is a number up to 255 without zeros in front. -/
def isOctet (cs : List Char) : Bool :=
  !cs.isEmpty && cs.length ≤ 3 && cs.all (·.isDigit) && (cs == ['0'] || cs.head? != some '0') &&
    natOfDigits cs ≤ 255

/-- Whether a text is an address of the fourth version: four numbers with dots between them. -/
def isAddress4 (cs : List Char) : Bool :=
  let octets := splitAtMark '.' cs
  octets.length == 4 && octets.all isOctet

/-- Whether a text is one to four hexadecimal digits. -/
def isGroup (cs : List Char) : Bool :=
  !cs.isEmpty && cs.length ≤ 4 && cs.all fun c => (hexValue? c).isSome

/-- An address without the zone after its percent sign, which is one word. -/
def dropZone? (cs : List Char) : Option (List Char) :=
  let address := cs.takeWhile (· != '%')
  match cs.drop address.length with
  | [] => some address
  | _ :: zone => if zone.isEmpty || zone.contains '%' then none else some address

/-- The groups of an address.  An address of the fourth version at the end is worth two groups. -/
def groupsOf? (cs : List Char) : Option (List (List Char)) :=
  let groups := splitAtMark ':' cs
  let last := groups.getLast?.getD []
  if last.contains '.' then
    if isAddress4 last then some (groups.dropLast ++ [['0'], ['0']]) else none
  else some groups

/-- The groups on one side of a gap; at the ends of an address there may be none. -/
def sideOfGap (groups : List (List Char)) : List (List Char) := if groups = [[]] then [] else groups

/-- Whether groups make up an address: eight of them, or fewer with one gap between two colons. -/
def areGroups (groups : List (List Char)) : Bool :=
  match (groups.drop 1).dropLast.findIdx? (·.isEmpty) with
  | none => groups.length == 8 && groups.all isGroup
  | some gap =>
    let both := sideOfGap (groups.take (gap + 1)) ++ sideOfGap (groups.drop (gap + 2))
    both.length ≤ 7 && both.all isGroup

/-- Whether a text is an address of the sixth version. -/
def isAddress6 (cs : List Char) : Bool := ((dropZone? cs).bind groupsOf?).any areGroups

/-- Whether a text announces a version and has something after it. -/
def isLaterVersion (cs : List Char) : Bool :=
  let version := (cs.drop 1).takeWhile fun c => (hexValue? c).isSome
  match (cs.drop 1).drop version.length with
  | '.' :: _ :: _ => !version.isEmpty
  | _ => false

/-- Checks the address of a host with brackets. -/
def checkAddress (cs : List Char) : Except HostError Unit :=
  if cs.head? = some 'v' then if isLaterVersion cs then .ok () else .error .laterVersion
  else if isAddress4 cs then .error .fourthVersion
  else if isAddress6 cs then .ok ()
  else .error (.noAddress (String.ofList cs))

/-! ### Hosts -/

/-- What comes after the user of a host, if it has one. -/
def dropUser (cs : List Char) : List Char := (cs.reverse.takeWhile (· != '@')).reverse

/-- Whether a text is empty or the port after an address. -/
def isPort (cs : List Char) : Bool := cs.isEmpty || cs.head? == some ':'

/-- Checks a host with brackets.  They may also stand in the name of its user; then the address ends
at a colon. -/
def checkBrackets (cs : List Char) : Except HostError Unit :=
  let place := dropUser cs
  let before := place.takeWhile (· != '[')
  match place.drop before.length with
  | [] => checkAddress (place.takeWhile (· != ':'))
  | _ :: bracketed =>
    let address := bracketed.takeWhile (· != ']')
    if before.isEmpty && isPort (bracketed.drop (address.length + 1)) then checkAddress address
    else .error .brackets

/-- The characters that are other spellings of the marks `/?#@:`, alone or among others. -/
def ambiguousCodes : List Nat :=
  [0x2047, 0x2048, 0x2049, 0x2100, 0x2101, 0x2105, 0x2106, 0x2a74, 0xfe13, 0xfe16, 0xfe55, 0xfe56,
    0xfe5f, 0xfe6b, 0xff03, 0xff0f, 0xff1a, 0xff1f, 0xff20]

/-- Checks a host. -/
def checkHost (cs : List Char) : Except HostError Unit := do
  if cs.contains '[' != cs.contains ']' then .error .brackets
  if cs.contains '[' then checkBrackets cs
  if cs.any fun c => ambiguousCodes.contains c.toNat then .error (.ambiguous (String.ofList cs))

end Uri

end GrammarLens
