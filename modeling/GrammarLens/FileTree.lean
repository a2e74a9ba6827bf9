import GrammarLens.Path
import GrammarLens.Text.Lines
import GrammarLens.Text.Utf8

/-! # Files

Some files, as a value.  A `FileTree` holds the place of the working directory and, for each file
that is known, the names that lead there from the root and its bytes, or the reason for which the
system refuses to read it.  A directory may be held too; the working directory, what is above it and
what is above a file need not be. -/

namespace GrammarLens

/-- What stands at a place. -/
inductive FileTree.Node where
  | file (bytes : List UInt8)
  | directory
  /-- A file that the system refuses to read. -/
  | refused (reason : String)
deriving DecidableEq, Repr

/-- A working directory, and files and directories with the names that lead there. -/
structure FileTree where
  directory : Path
  entries : List (List String × FileTree.Node)
deriving Repr

/-- Why a file cannot be read. -/
inductive FileError where
  | missing
  | isDirectory
  | notDirectory
  | nameTooLong
  /-- Any other reason that the system gives. -/
  | system (reason : String)
  | notUtf8
  | path (error : PathError)
deriving DecidableEq, Repr

namespace FileTree

/-- Whether a file stands at a place, be it one that cannot be read. -/
def Node.isFile : Node → Bool
  | file _ | refused _ => true
  | directory => false

/-- The suffixes of grammar files. -/
def grammarSuffixes : List (List Char) := [['.', 'y'], ['.', 'y', 'y']]

/-- Whether a place is above something that is known, or is the working directory. -/
def leadsOn (tree : FileTree) (place : List String) : Bool :=
  place.isPrefixOf tree.directory.parts || tree.entries.any fun e => place.isPrefixOf e.1

/-- What stands at a place, given by all names from the root on. -/
def node? (tree : FileTree) (place : List String) : Option Node :=
  match tree.entries.find? (·.1 == place) with
  | some entry => some entry.2
  | none => if tree.leadsOn place then some .directory else none

/-- How many bytes a name may have. -/
def maxNameBytes : Nat := 255

/-- How many bytes a path may have. -/
def maxPathBytes : Nat := 4095

/-- Follows names from a place.  Each name needs a directory to be looked up in, also one that
leads nowhere else, and must not be too long to be looked up. -/
def follow (tree : FileTree) (place : List String) : List String → Except FileError (List String)
  | [] => .ok place
  | name :: names =>
    match tree.node? place with
    | none => .error .missing
    | some (.file _) | some (.refused _) => .error .notDirectory
    | some .directory =>
      if name = "" ∨ name = "." then tree.follow place names
      else if name = ".." then tree.follow place.dropLast names
      else if maxNameBytes < name.utf8ByteSize then .error .nameTooLong
      else tree.follow (place ++ [name]) names

/-- Where names lead, from the root or from the working directory. -/
def locate (tree : FileTree) (absolute : Bool) (names : List String) :
    Except FileError (List String × Node) := do
  let place ← tree.follow (if absolute then [] else tree.directory.parts) names
  match tree.node? place with
  | none => .error .missing
  | some node => .ok (place, node)

/-- Where a path leads that is given as a text, in which a slash at the end needs a directory. -/
def locateText (tree : FileTree) (text : String) : Except FileError (List String × Node) :=
  if hasNul text then .error (.path .nul)
  else if text.isEmpty then .error .missing
  else if maxPathBytes < text.utf8ByteSize then .error .nameTooLong
  else
    let names := (splitSlashes text.toList).map String.ofList
    tree.locate (names.head? = some "") names

/-- What stands at a path that is given as a text. -/
def nodeAtText (tree : FileTree) (text : String) : Except FileError Node :=
  (tree.locateText text).map (·.2)

/-- What stands at a path. -/
def nodeAt (tree : FileTree) (path : Path) : Except FileError Node := tree.nodeAtText path.render

/-- Puts a file or a directory at a place. -/
def put (tree : FileTree) (place : List String) (node : Node) : FileTree :=
  { tree with entries := tree.entries.filter (·.1 != place) ++ [(place, node)] }

/-- Makes sure that there is a directory at a place where there was nothing. -/
def putDirectory (tree : FileTree) (place : List String) : FileTree :=
  if (tree.node? place).isSome then tree else tree.put place .directory

/-- Puts a file or a directory where a path leads, after the directories on the way. -/
def create (tree : FileTree) (path : Path) (node : Node) : FileTree :=
  let places := path.places tree.directory
  (places.dropLast.foldl putDirectory tree).put (places.getLast?.getD []) node

/-- The bytes of a file. -/
def read (tree : FileTree) (path : Path) : Except FileError (List UInt8) := do
  match ← tree.nodeAt path with
  | .file bytes => .ok bytes
  | .directory => .error .isDirectory
  | .refused reason => .error (.system reason)

/-- The text of a file, with its line ends unified. -/
def readText (tree : FileTree) (path : Path) : Except FileError String := do
  match Utf8.decode? (← tree.read path) with
  | some cs => .ok (String.ofList (unifyLineEnds cs))
  | none => .error .notUtf8

/-- Whether a name is the name of a grammar file. -/
def isGrammarName (name : String) : Bool :=
  grammarSuffixes.contains ((Path.suffixOf name).map (·.toLower))

/-- The names below a place that lead to grammar files. -/
def grammarsBelow (tree : FileTree) (place : List String) : List (List String) :=
  tree.entries.filterMap fun entry =>
    if entry.2.isFile && place.isPrefixOf entry.1 && entry.1.getLast?.any isGrammarName then
      some (entry.1.drop place.length)
    else none

/-- The grammar files below a directory, in the order of their names.  Below what is no directory
there are none, but a name that is too long cannot be looked up. -/
def grammars (tree : FileTree) (root : Path) : Except FileError (List Path) :=
  match tree.locateText root.render with
  | .ok (place, .directory) =>
    .ok (((tree.grammarsBelow place).mergeSort Path.partsLe).map root.child)
  | .error .nameTooLong => .error .nameTooLong
  | _ => .ok []

end FileTree

end GrammarLens
