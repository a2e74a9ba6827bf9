import GrammarLens.Text.Search

/-! # Paths

A path is a root and a list of parts.  Parts that are empty or a single dot say nothing and are left
out; two dots are kept, because what they mean depends on the files, and `resolve` takes them for
the part before.  Exactly two slashes at the start are a root of their own. -/

namespace GrammarLens

/-- Why a path cannot be used. -/
inductive PathError where
  /-- A name has the character in it that ends names. -/
  | nul
deriving DecidableEq, Repr

/-- The wording of a path error. -/
def PathError.message : PathError → String
  | nul => "embedded null byte"

/-- Whether a text has the character in it that ends names. -/
def hasNul (text : String) : Bool := text.toList.contains '\x00'

/-- A path: how many slashes it starts with, at most two, and the names between slashes. -/
structure Path where
  slashes : Nat
  parts : List String
deriving DecidableEq, Repr

/-- The pieces of a text between slashes. -/
def splitSlashes (cs : List Char) : List (List Char) := splitAtMark '/' cs

namespace Path

/-- The root that a text starts with. -/
def slashesOf (cs : List Char) : Nat :=
  match (cs.takeWhile (· == '/')).length with
  | 0 => 0
  | 2 => 2
  | _ => 1

/-- The path that a text spells. -/
def ofChars (cs : List Char) : Path :=
  let pieces := (splitSlashes cs).filter fun piece => piece ≠ [] && piece ≠ ['.']
  ⟨slashesOf cs, pieces.map String.ofList⟩

/-- The path that a text spells. -/
def ofText (text : String) : Path := ofChars text.toList

/-- The text of a path.  A path without root and parts is a single dot. -/
def render (path : Path) : String :=
  if path.slashes = 0 ∧ path.parts = [] then "."
  else String.ofList (List.replicate path.slashes '/') ++ "/".intercalate path.parts

/-- A path below another. -/
def child (path : Path) (parts : List String) : Path := ⟨path.slashes, path.parts ++ parts⟩

/-- Goes through parts from a place: two dots lead back to the place above. -/
def follow (place : List String) : List String → List String
  | [] => place
  | part :: parts => follow (if part = ".." then place.dropLast else place ++ [part]) parts

/-- The places that `follow` leads through, from the first to the last. -/
def passed (place : List String) : List String → List (List String)
  | [] => [place]
  | part :: parts =>
    place :: passed (if part = ".." then place.dropLast else place ++ [part]) parts

/-- The path from the root of everything, when `directory` is where relative paths start. -/
def resolve (path directory : Path) : Except PathError Path :=
  if path.parts.any hasNul then .error .nul
  else .ok ⟨1, follow (if path.slashes = 0 then directory.parts else []) path.parts⟩

/-- The places that a path leads through, when `directory` is where relative paths start. -/
def places (path directory : Path) : List (List String) :=
  passed (if path.slashes = 0 then directory.parts else []) path.parts

/-- The end of a name from its last dot on, unless the name starts or ends with that dot. -/
def suffixOf (name : String) : List Char :=
  let backward := name.toList.reverse
  let ending := backward.takeWhile (· != '.')
  match backward.drop ending.length with
  | [] | [_] => []
  | _ :: _ :: _ => if ending.isEmpty then [] else '.' :: ending.reverse

/-- Whether one list of names comes before another, part by part. -/
def partsLe : List String → List String → Bool
  | [], _ => true
  | _ :: _, [] => false
  | a :: as, b :: bs => if a = b then partsLe as bs else decide (a < b)

end Path

end GrammarLens
