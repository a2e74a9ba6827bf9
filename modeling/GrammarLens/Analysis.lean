import GrammarLens.Lint.Validator
import GrammarLens.Symbol.Lookup
import GrammarLens.Symbol.OfItems

/-! # Analysis

One pass over a grammar file: its text is scanned and read into a symbol table, and the table is
validated.  Passes share nothing.

The latest analysis of each open document is kept under the key of the document.  A pass that fails
leaves everything as it was. -/

namespace GrammarLens

/-- What is known about a grammar file. -/
structure Analysis where
  text : String
  table : Table
  problems : List Problem
deriving DecidableEq, Repr

/-- Why a pass gives no result. -/
inductive Analysis.Failure where
  /-- A symbol has no place in the text. -/
  | span (error : SpanError)
  /-- The settings or the document have the wrong type. -/
  | fault (fault : Json.Fault)
deriving DecidableEq, Repr

/-- Analyses a text under a policy and rule settings. -/
def analyze (policy : Policy) (settings : Json) (text : String) :
    List Notice × Except Analysis.Failure Analysis :=
  match Grammar.ofText text with
  | .error e => ([], .error (.span e))
  | .ok grammar =>
    match Validator.make policy settings with
    | (notices, .error fault) => (notices, .error (.fault fault))
    | (notices, .ok validator) =>
      let found := validator.run grammar.table
      (notices ++ found.1, .ok ⟨text, grammar.table, found.2⟩)

/-- Analyses a document from outside, which should be a text. -/
def analyzeDocument (policy : Policy) (settings document : Json) :
    List Notice × Except Analysis.Failure Analysis :=
  match document.text? with
  | some text => analyze policy settings text
  | none => ([], .error (.fault .noDocument))

/-! ### Open documents -/

/-- The analyses of the open documents, and what further passes go by. -/
structure Documents (κ : Type) where
  policy : Policy
  ruleSettings : Json
  entries : List (κ × Analysis)

namespace Documents

variable {κ : Type} [BEq κ]

/-- No open documents. -/
def empty (policy : Policy) (ruleSettings : Json) : Documents κ := ⟨policy, ruleSettings, []⟩

/-- Puts an analysis under a key, in place of an older one. -/
def put (key : κ) (analysis : Analysis) : List (κ × Analysis) → List (κ × Analysis)
  | [] => [(key, analysis)]
  | entry :: entries =>
    if entry.1 == key then (entry.1, analysis) :: entries else entry :: put key analysis entries

/-- A pass over a document, as the store would make it. -/
def analysisOf (documents : Documents κ) (document : Json) :
    List Notice × Except Analysis.Failure Analysis :=
  analyzeDocument documents.policy documents.ruleSettings document

/-- Analyses a document and keeps the result. -/
def update (documents : Documents κ) (key : κ) (document : Json) :
    Documents κ × List Notice × Except Analysis.Failure Analysis :=
  match documents.analysisOf document with
  | (notices, .ok analysis) =>
    ({ documents with entries := put key analysis documents.entries }, notices, .ok analysis)
  | (notices, .error failure) => (documents, notices, .error failure)

/-- Analyses a document with a name from outside.  A name that cannot be a key shows only when the
result is to be kept. -/
def updateNamed (documents : Documents Json) (name document : Json) :
    Documents Json × List Notice × Except Analysis.Failure Analysis :=
  match name.key with
  | .ok key => documents.update key document
  | .error fault =>
    match documents.analysisOf document with
    | (notices, .ok _) => (documents, notices, .error (.fault fault))
    | (notices, .error failure) => (documents, notices, .error failure)

/-- Forgets a document. -/
def remove (documents : Documents κ) (key : κ) : Documents κ :=
  { documents with entries := documents.entries.filter (!·.1 == key) }

/-- Forgets a document with a name from outside.  If no document is open, any name will do. -/
def removeNamed (documents : Documents Json) (name : Json) :
    Except Json.Fault (Documents Json) :=
  if documents.entries.isEmpty then .ok documents else name.key.map documents.remove

/-- The latest analysis of a document. -/
def get? (documents : Documents κ) (key : κ) : Option Analysis :=
  (documents.entries.find? (·.1 == key)).map (·.2)

/-- The symbol at a position of a document. -/
def symbolAt? (documents : Documents κ) (key : κ) (p : Position) : Option Symbol :=
  (documents.get? key).bind (·.table.symbolAt? p)

/-- The problems in a document. -/
def problems (documents : Documents κ) (key : κ) : List Problem :=
  ((documents.get? key).map (·.problems)).getD []

/-- Whether a document is open. -/
def contains (documents : Documents κ) (key : κ) : Bool := (documents.get? key).isSome

omit [BEq κ] in
/-- The number of open documents. -/
def size (documents : Documents κ) : Nat := documents.entries.length

end Documents

end GrammarLens
