import GrammarLens.Analysis
import GrammarLens.Proofs.Definitions
import Mathlib.Data.List.Induction
import Mathlib.Data.List.Nodup

/-! # Each document has its latest analysis

A store of documents is asked to analyse, to forget and to answer, in any order and about any
documents, while its policy and its rule settings may be replaced.  Of all this, a document is
touched by its own updates and removals only (`visits`), each of which sees the policy and the rule
settings at that time.  What the store then holds for the document is the analysis of the last
update that did not fail, unless a removal came after it (`latest`).  The store works one request at
a time: `get?_handle` says what a request does to one document, and `get?_after` follows from it for
a whole history. -/

namespace GrammarLens

/-! ### Names of documents -/

namespace Json

/-- A text is equal to itself and to no other value. -/
theorem beq_text_iff {v : Json} {s : String} : (v == text s) = true ↔ v = text s := by
  show same v (text s) = true ↔ v = text s
  cases v with
  | text s' => simp [same]
  | _ => simp [same, number?, int?]

theorem beq_text_eq_false_iff {v : Json} {s : String} : (v == text s) = false ↔ v ≠ text s := by
  rw [Bool.eq_false_iff, ne_eq, beq_text_iff]

end Json

namespace Documents

/-! ### Entries -/

/-- The analysis under a name among some entries. -/
def lookup (entries : List (Json × Analysis)) (uri : String) : Option Analysis :=
  (entries.find? (·.1 == .text uri)).map (·.2)

theorem lookup_cons_self {entry : Json × Analysis} {uri : String} (h : entry.1 = .text uri)
    (entries : List (Json × Analysis)) : lookup (entry :: entries) uri = some entry.2 := by
  rw [lookup, List.find?_cons, Json.beq_text_iff.mpr h]
  rfl

theorem lookup_cons_of_ne {entry : Json × Analysis} {uri : String} (h : entry.1 ≠ .text uri)
    (entries : List (Json × Analysis)) : lookup (entry :: entries) uri = lookup entries uri := by
  rw [lookup, List.find?_cons, Json.beq_text_eq_false_iff.mpr h]
  rfl

theorem lookup_put_self (entries : List (Json × Analysis)) (uri : String) (analysis : Analysis) :
    lookup (put (.text uri) analysis entries) uri = some analysis := by
  induction entries with
  | nil => exact lookup_cons_self rfl []
  | cons entry entries ih =>
      rw [put]
      split
      · rename_i he
        have he : (entry.1, analysis).1 = .text uri := Json.beq_text_iff.mp he
        exact lookup_cons_self he entries
      · rename_i he
        rw [lookup_cons_of_ne (fun h => he (Json.beq_text_iff.mpr h)), ih]

theorem lookup_put_of_ne {name uri : String} (h : name ≠ uri) (entries : List (Json × Analysis))
    (analysis : Analysis) :
    lookup (put (.text name) analysis entries) uri = lookup entries uri := by
  have hne : Json.text name ≠ .text uri := fun he => h (Json.text.inj he)
  induction entries with
  | nil => exact lookup_cons_of_ne hne []
  | cons entry entries ih =>
      rw [put]
      split
      · rename_i he
        have he : entry.1 ≠ .text uri := Json.beq_text_iff.mp he ▸ hne
        have hnew : (entry.1, analysis).1 ≠ .text uri := he
        rw [lookup_cons_of_ne hnew, lookup_cons_of_ne he]
      · by_cases he : entry.1 = .text uri
        · rw [lookup_cons_self he, lookup_cons_self he]
        · rw [lookup_cons_of_ne he, lookup_cons_of_ne he, ih]

theorem lookup_filter_self (entries : List (Json × Analysis)) (uri : String) :
    lookup (entries.filter (!·.1 == .text uri)) uri = none := by
  have hnone : (entries.filter (!·.1 == .text uri)).find? (·.1 == .text uri) = none := by
    rw [List.find?_eq_none]
    intro entry hentry
    simpa using (List.mem_filter.mp hentry).2
  rw [lookup, hnone]
  rfl

theorem lookup_filter_of_ne {name uri : String} (h : name ≠ uri)
    (entries : List (Json × Analysis)) :
    lookup (entries.filter (!·.1 == .text name)) uri = lookup entries uri := by
  have hne : Json.text name ≠ .text uri := fun he => h (Json.text.inj he)
  induction entries with
  | nil => rfl
  | cons entry entries ih =>
      rw [List.filter_cons]
      split
      · by_cases he : entry.1 = .text uri
        · rw [lookup_cons_self he, lookup_cons_self he]
        · rw [lookup_cons_of_ne he, lookup_cons_of_ne he, ih]
      · rename_i he
        rw [Bool.not_eq_true', Bool.not_eq_false] at he
        rw [ih, lookup_cons_of_ne (Json.beq_text_iff.mp he ▸ hne)]

/-- The entries are those of some documents, each of which has one. -/
structure Holds (entries : List (Json × Analysis)) (uris : List String) : Prop where
  nodup : uris.Nodup
  keys : entries.map (·.1) = uris.map .text

namespace Holds

variable {entries : List (Json × Analysis)} {uris : List String}

theorem mem_keys_iff (h : Holds entries uris) (uri : String) :
    Json.text uri ∈ entries.map (·.1) ↔ uri ∈ uris := by
  rw [h.keys]
  simp

theorem mem_iff (h : Holds entries uris) (uri : String) :
    uri ∈ uris ↔ (lookup entries uri).isSome = true := by
  rw [← h.mem_keys_iff]
  clear h
  induction entries with
  | nil => simp [lookup]
  | cons entry entries ih =>
      rw [List.map_cons, List.mem_cons]
      by_cases he : entry.1 = .text uri
      · simp [lookup_cons_self he, he]
      · simp [lookup_cons_of_ne he, ih, Ne.symm he]

end Holds

theorem keys_put_of_mem {name : String} {entries : List (Json × Analysis)}
    (h : Json.text name ∈ entries.map (·.1)) (analysis : Analysis) :
    (put (.text name) analysis entries).map (·.1) = entries.map (·.1) := by
  induction entries with
  | nil => cases h
  | cons entry entries ih =>
      rw [put]
      split
      · rfl
      · rename_i he
        rcases List.mem_cons.mp h with hname | hmem
        · exact absurd (Json.beq_text_iff.mpr hname.symm) he
        · rw [List.map_cons, List.map_cons, ih hmem]

theorem keys_put_of_not_mem {name : String} {entries : List (Json × Analysis)}
    (h : Json.text name ∉ entries.map (·.1)) (analysis : Analysis) :
    (put (.text name) analysis entries).map (·.1) = entries.map (·.1) ++ [.text name] := by
  induction entries with
  | nil => rfl
  | cons entry entries ih =>
      rw [List.map_cons, List.mem_cons, not_or] at h
      rw [put, if_neg fun he => h.1 (Json.beq_text_iff.mp he).symm, List.map_cons, List.map_cons,
        ih h.2]
      rfl

namespace Holds

variable {entries : List (Json × Analysis)} {uris : List String}

theorem put (h : Holds entries uris) (name : String) (analysis : Analysis) :
    ∃ uris', Holds (put (.text name) analysis entries) uris' := by
  by_cases hname : name ∈ uris
  · refine ⟨uris, h.nodup, ?_⟩
    rw [keys_put_of_mem ((h.mem_keys_iff name).mpr hname), h.keys]
  · refine ⟨uris ++ [name], ?_, ?_⟩
    · refine List.nodup_append.mpr ⟨h.nodup, List.nodup_singleton name, ?_⟩
      rintro a ha b hb rfl
      exact hname (List.mem_singleton.mp hb ▸ ha)
    · rw [keys_put_of_not_mem (fun hk => hname ((h.mem_keys_iff name).mp hk)), h.keys,
        List.map_append]
      rfl

theorem filter (h : Holds entries uris) (name : String) :
    ∃ uris', Holds (entries.filter (!·.1 == .text name)) uris' := by
  refine ⟨uris.filter fun uri => !(Json.text uri == .text name), h.nodup.filter _, ?_⟩
  have hkeys : (entries.filter (!·.1 == .text name)).map (·.1) =
      (entries.map (·.1)).filter (fun key => !(key == .text name)) := by
    rw [List.filter_map]
    rfl
  rw [hkeys, h.keys, List.filter_map]
  rfl

end Holds

/-! ### Requests to a store -/

/-- What a store is asked to do. -/
inductive Request where
  | update (uri : String) (document : Json)
  | remove (uri : String)
  | setPolicy (policy : Policy)
  | setRules (settings : Json)
  | get (uri : String)
  | problems (uri : String)
  | symbolAt (uri : String) (p : Position)
  | contains (uri : String)
  | size

/-- What a store replies. -/
inductive Reply where
  | analysed (outcome : Except Analysis.Failure Analysis)
  | removed (outcome : Except Json.Fault Unit)
  | replaced
  | analysis (found : Option Analysis)
  | problems (found : List Problem)
  | symbol (found : Option Symbol)
  | isOpen (answer : Bool)
  | count (n : Nat)

/-- The store after a request, and its reply. -/
def handle (documents : Documents Json) : Request → Documents Json × Reply
  | .update uri document =>
    let updated := documents.updateNamed (.text uri) document
    (updated.1, .analysed updated.2.2)
  | .remove uri =>
    match documents.removeNamed (.text uri) with
    | .ok left => (left, .removed (.ok ()))
    | .error fault => (documents, .removed (.error fault))
  | .setPolicy policy => ({ documents with policy := policy }, .replaced)
  | .setRules settings => ({ documents with ruleSettings := settings }, .replaced)
  | .get uri => (documents, .analysis (documents.get? (.text uri)))
  | .problems uri => (documents, .problems (documents.problems (.text uri)))
  | .symbolAt uri p => (documents, .symbol (documents.symbolAt? (.text uri) p))
  | .contains uri => (documents, .isOpen (documents.contains (.text uri)))
  | .size => (documents, .count documents.size)

/-- The store after some requests. -/
def after (documents : Documents Json) (requests : List Request) : Documents Json :=
  requests.foldl (fun current request => (current.handle request).1) documents

/-! ### The history of one document -/

/-- A request that touches a document, with what the store goes by at that time. -/
inductive Visit where
  | update (policy : Policy) (settings document : Json)
  | remove

namespace Visit

/-- Whether the document is forgotten. -/
def isRemoval : Visit → Bool
  | update _ _ _ => false
  | remove => true

/-- The analysis that a visit brings, if it is an update and does not fail. -/
def analysis? : Visit → Option Analysis
  | update policy settings document => (analyzeDocument policy settings document).2.toOption
  | remove => none

end Visit

/-- The visits to a document in the course of some requests to a store that goes by a policy and
rule settings at first. -/
def visits (uri : String) (policy : Policy) (settings : Json) : List Request → List Visit
  | [] => []
  | .update name document :: requests =>
    if name = uri then .update policy settings document :: visits uri policy settings requests
    else visits uri policy settings requests
  | .remove name :: requests =>
    if name = uri then .remove :: visits uri policy settings requests
    else visits uri policy settings requests
  | .setPolicy new :: requests => visits uri new settings requests
  | .setRules new :: requests => visits uri policy new requests
  | _ :: requests => visits uri policy settings requests

/-- The analysis of the last update that did not fail, among the visits after the last removal. -/
def latest (visits : List Visit) : Option Analysis :=
  (visits.reverse.takeWhile (!·.isRemoval)).findSome? Visit.analysis?

/-- What a visit makes of the analysis that is there. -/
def Visit.leave (found : Option Analysis) (visit : Visit) : Option Analysis :=
  if visit.isRemoval then none else visit.analysis?.or found

theorem foldl_leave (visits : List Visit) : visits.foldl Visit.leave none = latest visits := by
  induction visits using List.reverseRecOn with
  | nil => rfl
  | append_singleton visits visit ih =>
      have hlast : latest (visits ++ [visit]) =
          ((visit :: visits.reverse).takeWhile (!·.isRemoval)).findSome? Visit.analysis? := by
        rw [latest, List.reverse_append]
        rfl
      rw [List.foldl_append, ih, hlast, List.takeWhile_cons]
      show Visit.leave (latest visits) visit = _
      rw [Visit.leave]
      cases visit.isRemoval with
      | true => rfl
      | false =>
          simp only [Bool.not_false, if_true, Bool.false_eq_true, if_false, List.findSome?_cons]
          cases visit.analysis? with
          | none => rfl
          | some analysis => rfl

/-! ### One request -/

theorem handle_update (documents : Documents Json) (uri : String) (document : Json) :
    documents.handle (.update uri document) =
      match (analyzeDocument documents.policy documents.ruleSettings document).2 with
      | .ok analysis =>
        ({ documents with entries := put (.text uri) analysis documents.entries },
          .analysed (.ok analysis))
      | .error failure => (documents, .analysed (.error failure)) := by
  show ((documents.update (.text uri) document).1,
    Reply.analysed (documents.update (.text uri) document).2.2) = _
  unfold update analysisOf
  rcases analyzeDocument documents.policy documents.ruleSettings document with
    ⟨notices, failure | analysis⟩
  · rfl
  · rfl

/-- Names that are texts can always be removed. -/
theorem handle_remove (documents : Documents Json) (uri : String) :
    documents.handle (.remove uri) = (documents.remove (.text uri), .removed (.ok ())) := by
  obtain ⟨policy, settings, entries⟩ := documents
  cases entries with
  | nil => rfl
  | cons entry entries => rfl

/-- A request changes what the store holds for a document as its visits there say. -/
theorem get?_handle (documents : Documents Json) (request : Request) (uri : String) :
    (documents.handle request).1.get? (.text uri) =
      (visits uri documents.policy documents.ruleSettings [request]).foldl Visit.leave
        (documents.get? (.text uri)) := by
  cases request with
  | update name document =>
      have hleave : Visit.leave (documents.get? (.text uri))
          (.update documents.policy documents.ruleSettings document) =
          (analyzeDocument documents.policy documents.ruleSettings document).2.toOption.or
            (documents.get? (.text uri)) := rfl
      rw [handle_update, visits, visits]
      cases hpass : (analyzeDocument documents.policy documents.ruleSettings document).2 with
      | ok analysis =>
          rw [hpass] at hleave
          show lookup (put (.text name) analysis documents.entries) uri = _
          by_cases hname : name = uri
          · rw [if_pos hname, hname, lookup_put_self]
            exact hleave.symm
          · rw [if_neg hname, lookup_put_of_ne hname]
            rfl
      | error failure =>
          rw [hpass] at hleave
          by_cases hname : name = uri
          · rw [if_pos hname]
            exact hleave.symm
          · rw [if_neg hname]
            rfl
  | remove name =>
      rw [handle_remove, visits, visits]
      show lookup (documents.entries.filter (!·.1 == .text name)) uri = _
      by_cases hname : name = uri
      · rw [if_pos hname, hname, lookup_filter_self]
        rfl
      · rw [if_neg hname, lookup_filter_of_ne hname]
        rfl
  | setPolicy | setRules | get | problems | symbolAt | contains | size => rfl

/-- The visits to a document go on with what the store goes by after the first request. -/
theorem visits_cons (documents : Documents Json) (request : Request) (requests : List Request)
    (uri : String) :
    visits uri documents.policy documents.ruleSettings (request :: requests) =
      visits uri documents.policy documents.ruleSettings [request] ++
        visits uri (documents.handle request).1.policy (documents.handle request).1.ruleSettings
          requests := by
  cases request with
  | update name document =>
      rw [handle_update]
      simp only [visits]
      cases (analyzeDocument documents.policy documents.ruleSettings document).2 with
      | ok analysis => split <;> rfl
      | error failure => split <;> rfl
  | remove name =>
      rw [handle_remove]
      simp only [visits]
      split <;> rfl
  | setPolicy | setRules | get | problems | symbolAt | contains | size => rfl

theorem holds_handle {documents : Documents Json} {uris : List String}
    (h : Holds documents.entries uris) (request : Request) :
    ∃ uris', Holds (documents.handle request).1.entries uris' := by
  cases request with
  | update name document =>
      rw [handle_update]
      cases (analyzeDocument documents.policy documents.ruleSettings document).2 with
      | ok analysis => exact h.put name analysis
      | error failure => exact ⟨uris, h⟩
  | remove name =>
      rw [handle_remove]
      exact h.filter name
  | setPolicy | setRules | get | problems | symbolAt | contains | size => exact ⟨uris, h⟩

/-! ### Many requests -/

theorem get?_after (documents : Documents Json) (requests : List Request) (uri : String) :
    (documents.after requests).get? (.text uri) =
      (visits uri documents.policy documents.ruleSettings requests).foldl Visit.leave
        (documents.get? (.text uri)) := by
  induction requests generalizing documents with
  | nil => rfl
  | cons request requests ih =>
      rw [visits_cons, List.foldl_append, ← get?_handle]
      exact ih (documents.handle request).1

theorem holds_after {documents : Documents Json} {uris : List String}
    (h : Holds documents.entries uris) (requests : List Request) :
    ∃ uris', Holds (documents.after requests).entries uris' := by
  induction requests generalizing documents uris with
  | nil => exact ⟨uris, h⟩
  | cons request requests ih =>
      obtain ⟨uris', h'⟩ := holds_handle h request
      exact ih h'

/-- The store replies to every question out of one analysis for each document, or none, and does not
change by it.  It counts the documents that have one. -/
structure Reflects (store : Documents Json) (found : String → Option Analysis) : Prop where
  get : ∀ uri, store.handle (.get uri) = (store, .analysis (found uri))
  problems : ∀ uri, store.handle (.problems uri) =
    (store, .problems (((found uri).map (·.problems)).getD []))
  symbolAt : ∀ uri p, store.handle (.symbolAt uri p) =
    (store, .symbol ((found uri).bind (·.table.symbolAt? p)))
  contains : ∀ uri, store.handle (.contains uri) = (store, .isOpen (found uri).isSome)
  size : ∃ uris : List String, uris.Nodup ∧ (∀ uri, uri ∈ uris ↔ (found uri).isSome = true) ∧
    store.handle .size = (store, .count uris.length)

theorem reflects_of_get? {store : Documents Json} {found : String → Option Analysis}
    (h : ∀ uri, store.get? (.text uri) = found uri) {uris : List String}
    (huris : Holds store.entries uris) : store.Reflects found where
  get uri := by rw [← h]; rfl
  problems uri := by rw [← h]; rfl
  symbolAt uri p := by rw [← h]; rfl
  contains uri := by rw [← h]; rfl
  size := by
    refine ⟨uris, huris.nodup, ?_, ?_⟩
    · intro uri
      rw [huris.mem_iff, ← h]
      rfl
    · have hlen : store.entries.length = uris.length := by
        have := congrArg List.length huris.keys
        rwa [List.length_map, List.length_map] at this
      show (store, Reply.count store.entries.length) = _
      rw [hlen]

/-- Nothing but the document and the settings can make a pass fail. -/
theorem analyzeDocument_fails_iff (policy : Policy) (settings document : Json) :
    (∃ failure, (analyzeDocument policy settings document).2 = .error failure) ↔
      document.text? = none ∨ ∃ fault, (Validator.make policy settings).2 = .error fault := by
  unfold analyzeDocument
  cases document.text? with
  | none => simp
  | some text =>
      simp only [analyze, ofText_eq_run]
      rcases Validator.make policy settings with ⟨notices, fault | validator⟩
      · simp
      · simp

/-- After any requests, a store holds for each document the analysis of its last update that did not
fail and came after its last removal, made under the policy and the rule settings of that time.  An
update fails if the document is no text or the rule settings cannot be used, and then it leaves the
store as it was. -/
theorem latest_update_kept (policy : Policy) (settings : Json) (requests : List Request) :
    ((empty policy settings).after requests).Reflects
      (fun uri => latest (visits uri policy settings requests)) ∧
    ∀ (store : Documents Json) (uri : String) (document : Json),
      ((∃ failure, (store.handle (.update uri document)).2 = .analysed (.error failure)) ↔
        document.text? = none ∨
          ∃ fault, (Validator.make store.policy store.ruleSettings).2 = .error fault) ∧
      ((∃ failure, (store.handle (.update uri document)).2 = .analysed (.error failure)) →
        (store.handle (.update uri document)).1 = store) := by
  refine ⟨?_, ?_⟩
  · have hempty : Holds (empty policy settings : Documents Json).entries [] :=
      ⟨List.nodup_nil, rfl⟩
    obtain ⟨uris, huris⟩ := holds_after hempty requests
    refine reflects_of_get? ?_ huris
    intro uri
    rw [get?_after, ← foldl_leave]
    rfl
  · intro store uri document
    rw [← analyzeDocument_fails_iff, handle_update]
    cases (analyzeDocument store.policy store.ruleSettings document).2 with
    | ok analysis => simp
    | error failure => simp

/-- One document is updated, then updated in vain under rule settings that cannot be used; another
one is removed. -/
def mixedRequests : List Request :=
  [.update "a.y" (.text "%%\nr : q ;"), .update "b.y" (.text "%%"), .setRules (.int 1),
    .update "a.y" (.text "%%"), .get "a.y", .remove "b.y", .update "b.y" .null]

theorem mixedRequests_kept :
    ((empty .default (.object [])).after mixedRequests).handle (.get "a.y") =
        ((empty .default (.object [])).after mixedRequests,
          .analysis (analyze .default (.object []) "%%\nr : q ;").2.toOption) ∧
      ((empty .default (.object [])).after mixedRequests).handle (.contains "b.y") =
        ((empty .default (.object [])).after mixedRequests, .isOpen false) ∧
      (((empty .default (.object [])).after mixedRequests).handle (.update "a.y" .null)).1 =
        (empty .default (.object [])).after mixedRequests := by
  obtain ⟨hreflects, hfails⟩ := latest_update_kept .default (.object []) mixedRequests
  have hlatest : latest (visits "a.y" .default (.object []) mixedRequests) =
      (analyze .default (.object []) "%%\nr : q ;").2.toOption := by
    decide +kernel
  have hremoved : (latest (visits "b.y" .default (.object []) mixedRequests)).isSome = false := by
    decide +kernel
  refine ⟨?_, ?_, ?_⟩
  · rw [hreflects.get, hlatest]
  · rw [hreflects.contains, hremoved]
  · obtain ⟨hiff, hsame⟩ :=
      hfails ((empty .default (.object [])).after mixedRequests) "a.y" .null
    exact hsame (hiff.mpr (Or.inl rfl))

end Documents

end GrammarLens
