import GrammarLens.Analysis
import GrammarLens.Completion
import GrammarLens.Editor
import GrammarLens.Hover
import GrammarLens.Settings
import GrammarLens.Uri

/-! # Server

The requests of an editor.  A server holds the settings, the open documents and a log.  Requests
come from outside: a document is named by a value that should be a text, and a position is a pair of
values that should be integers.  A request that cannot be answered is told in the log and answered
with nothing.  Spans are sent to the editor only if it can express all of them. -/

namespace GrammarLens

/-- A place in a document. -/
structure Location where
  document : String
  span : Span
deriving Repr

/-- A pair of coordinates as a client sends it. -/
structure Caret where
  line : Json
  column : Json
deriving Repr

/-- The position of a caret; a negative coordinate counts as zero. -/
def Caret.position (caret : Caret) : Except Json.Fault Position :=
  match caret.line.int?, caret.column.int? with
  | some line, some column => .ok (.clamped line column)
  | _, _ => .error .noInteger

/-- The first elements of a list, up to a limit.  A negative limit counts from the end. -/
def takeLimit {α : Type} (limit : Int) (xs : List α) : List α :=
  if limit < xs.length then
    if limit < 0 then xs.take (xs.length - limit.natAbs) else xs.take limit.toNat
  else xs

/-- The state of a server. -/
structure Server where
  settings : Settings
  documents : Documents Json
  log : Log

/-- Why a server has no answer. -/
inductive Server.Failure (ε : Type) where
  /-- A value from outside cannot be used. -/
  | fault (fault : Json.Fault)
  /-- The editor cannot express a position. -/
  | editor (error : ε)
deriving DecidableEq, Repr

namespace Server

variable {ε : Type}

/-- A server at its start. -/
def initial : Server := ⟨{}, .empty .default (.object []), {}⟩

/-- Tells something. -/
def tell (server : Server) (notices : List Notice) : Server :=
  { server with log := server.log.add notices }

/-! ### Settings -/

/-- Sets the root of the workspace, if the client names one that is a file. -/
def setRoot (server : Server) (tree : FileTree) (root : Json) : Except Json.Fault Server :=
  if root.isTrue then
    match root.text? with
    | none => .error .noDocument
    | some uri =>
      match Uri.toPath uri with
      | .error e => .ok (server.tell [.rootIgnored e.message])
      | .ok path =>
        match server.settings.setRoot tree (some path) with
        | .error e => .ok (server.tell [.rootIgnored e.message])
        | .ok settings => .ok { server with settings := settings }
  else .ok server

/-- Sets the options of the client, and lets further passes over documents go by them. -/
def setOptions (server : Server) (tree : FileTree) (options : Json) :
    Server × Except Json.Fault Unit :=
  match server.settings.setOptions tree server.log options with
  | (log, .error fault) => ({ server with log := log }, .error fault)
  | (log, .ok settings) =>
    let changed := { server with settings := settings, log := log }
    match settings.policy with
    | .error fault => (changed, .error fault)
    | .ok policy =>
      let documents := { changed.documents with
        policy := policy, ruleSettings := settings.ruleSettings }
      ({ changed with documents := documents }, .ok ())

/-- Prepares the server for a client. -/
def setUp (server : Server) (tree : FileTree) (options root : Json) :
    Server × Except Json.Fault Unit :=
  match server.setRoot tree root with
  | .error fault => (server, .error fault)
  | .ok rooted => rooted.setOptions tree options

/-! ### Documents -/

/-- Analyses a document and keeps the result. -/
def update (server : Server) (document text : Json) :
    Server × Except Analysis.Failure Analysis :=
  let updated := server.documents.updateNamed document text
  ({ server with documents := updated.1 }.tell updated.2.1, updated.2.2)

/-- The problems up to a limit from outside, which should be an integer. -/
def limited (limit : Json) (problems : List Problem) : Except Json.Fault (List Problem) :=
  match limit.number? with
  | some (.whole n) => .ok (takeLimit n problems)
  | some (.double x) =>
    if (Number.double x).lt (.whole problems.length) then .error .noInteger else .ok problems
  | none => .error .noInteger

/-- The problems of a document that are published, at most as many as the options have it.  The
editor has to express all of them, also those beyond the limit. -/
def published (server : Server) (editor : Editor ε) (problems : List Problem) :
    Except (Failure ε) (List Problem) :=
  if server.settings.diagnosticsEnabled.isTrue then do
    (editor.express (problems.map (·.span))).mapError .editor
    (limited server.settings.maxDiagnostics problems).mapError .fault
  else .ok []

/-- Takes the text of a document that was opened or changed, and gives the problems that are
published.  A pass that fails publishes none. -/
def openDocument (server : Server) (editor : Editor ε) (document text : Json) :
    Server × Except (Failure ε) (List Problem) :=
  match server.update document text with
  | (updated, .ok analysis) => (updated, updated.published editor analysis.problems)
  | (updated, .error _) =>
    (updated.tell [.internal s!"analysis of {document.render} failed"], .ok [])

/-- Forgets a document. -/
def closeDocument (server : Server) (document : Json) : Server × Except Json.Fault Unit :=
  match server.documents.removeNamed document with
  | .ok documents => ({ server with documents := documents }, .ok ())
  | .error fault => (server, .error fault)

/-- The latest analysis of a document. -/
def analysis? (server : Server) (document : Json) : Except Json.Fault (Option Analysis) :=
  document.key.map server.documents.get?

/-! ### Requests -/

/-- Spans of a document as places.  Without any span the document need not have a name. -/
def locations (editor : Editor ε) (document : Json) (spans : List Span) :
    Except (Failure ε) (List Location) := do
  (editor.express spans).mapError .editor
  match spans, document.text? with
  | [], _ => return []
  | _, some name => return spans.map (⟨name, ·⟩)
  | _, none => throw (Failure.fault .noText)

/-- The symbol at a position of a document. -/
def symbolAt? (server : Server) (document : Json) (p : Position) :
    Except Json.Fault (Option Symbol) := do
  return (← server.analysis? document).bind (·.table.symbolAt? p)

/-- Where the symbol at a position is defined. -/
def definition (server : Server) (editor : Editor ε) (document : Json) (p : Position) :
    Except (Failure ε) (Option (List Location)) := do
  match (← (server.symbolAt? document p).mapError .fault).bind (·.definition) with
  | some d => return some (← locations editor document [d.span])
  | none => return none

/-- Where the symbol at a position is used, after its definition if that is asked for. -/
def references (server : Server) (editor : Editor ε) (document : Json) (p : Position)
    (withDefinition : Bool) : Except (Failure ε) (Option (List Location)) := do
  match ← (server.symbolAt? document p).mapError .fault with
  | some s =>
    let own := if withDefinition then s.definition.toList.map (·.nameSpan) else []
    return some (← locations editor document (own ++ s.useSpans))
  | none => return none

/-- The outline of a document. -/
def outline (server : Server) (editor : Editor ε) (document : Json) :
    Except (Failure ε) (Option (List OutlineEntry)) := do
  match ← (server.analysis? document).mapError .fault with
  | some a => return some (← (editor.outline a.table).mapError .editor)
  | none => return none

/-- The text that is shown for a position. -/
def hover (server : Server) (document : Json) (p : Position) :
    Except Json.Fault (Option String) := do
  return (← server.analysis? document).bind fun a => a.table.hover? (.ofText a.text) p

/-- What is offered at a position. -/
def completions (server : Server) (document : Json) (p : Position) :
    Except Json.Fault (List Offer) := do
  match ← server.analysis? document with
  | none => return []
  | some a => return a.table.offers (.ofText a.text) p

/-- The answer to a request, or `nothing` if it cannot be answered, which is told under the name of
the request. -/
def answer {φ α : Type} (server : Server) (request : String) (nothing : α)
    (reply : Except φ α) : Server × α :=
  match reply with
  | .ok a => (server, a)
  | .error _ => (server.tell [.requestFailed request], nothing)

/-- Answers where the symbol at a caret is defined. -/
def onDefinition (server : Server) (editor : Editor ε) (document : Json) (caret : Caret) :
    Server × Option (List Location) :=
  server.answer "definition" none do
    server.definition editor document (← caret.position.mapError .fault)

/-- Answers where the symbol at a caret is used. -/
def onReferences (server : Server) (editor : Editor ε) (document : Json) (caret : Caret)
    (withDefinition : Bool) : Server × Option (List Location) :=
  server.answer "references" none do
    server.references editor document (← caret.position.mapError .fault) withDefinition

/-- Answers with the outline of a document. -/
def onOutline (server : Server) (editor : Editor ε) (document : Json) :
    Server × Option (List OutlineEntry) :=
  server.answer "document symbol" (some []) (server.outline editor document)

/-- Answers with the text that is shown at a caret. -/
def onHover (server : Server) (document : Json) (caret : Caret) : Server × Option String :=
  server.answer "hover" none do server.hover document (← caret.position)

/-- Answers with what is offered at a caret. -/
def onCompletion (server : Server) (document : Json) (caret : Caret) : Server × List Offer :=
  server.answer "completion" [] do server.completions document (← caret.position)

end Server

end GrammarLens
