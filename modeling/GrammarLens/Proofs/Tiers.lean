import GrammarLens.Proofs.Caret
import GrammarLens.Proofs.Publishing
import GrammarLens.Proofs.ScanSteps

/-! # The symbol at a caret, tier by tier

Looking up a position keeps the heaviest of the occurrences that it has passed, and an occurrence of
the same weight does not replace it.  There are four weights, so what is kept in the end is the
first occurrence of the first tier that has any (`heaviest_eq_tiered`).  Occurrences come in the
order of the table, where a symbol may stand behind others that occur on a lower tier.  So looking
up is four searches through the symbols, one after the other (`symbolAt?_eq_tiers`).

A symbol that is found occurs at the position, and what a server answers about it are its
occurrences.  `symbolAt?_first_of_tiers` says this of every table that comes about by operations
and of every document that has such a table. -/

namespace GrammarLens

/-! ### Tiers of occurrences -/

namespace Table

/-- The first occurrence of the first tier that has any. -/
def tiered (occurrences : List (Symbol × Occurrence)) : Option (Symbol × Occurrence) :=
  (occurrences.find? (·.2 == .templateDefinition)).or <|
    (occurrences.find? (·.2 == .call)).or <|
      (occurrences.find? (·.2 == .definition)).or <|
        occurrences.find? (·.2 == .reference)

section Tiered

variable (s s' : Symbol) {o o' : Occurrence} (rest : List (Symbol × Occurrence))

/-- An occurrence does not matter before one of a higher tier. -/
theorem tiered_of_lt (h : o.rank < o'.rank) :
    tiered ((s, o) :: (s', o') :: rest) = tiered ((s', o') :: rest) := by
  revert h
  cases o <;> cases o' <;> simp [tiered, Occurrence.rank]

/-- An occurrence does not matter behind one that it does not outrank. -/
theorem tiered_of_le (h : o'.rank ≤ o.rank) :
    tiered ((s, o) :: (s', o') :: rest) = tiered ((s, o) :: rest) := by
  revert h
  cases o <;> cases o' <;> simp [tiered, Occurrence.rank]

end Tiered

theorem tiered_singleton (o : Symbol × Occurrence) : tiered [o] = some o := by
  obtain ⟨s, o⟩ := o
  cases o <;> simp [tiered]

/-- What is kept on the way stands for all that was passed. -/
theorem heaviest_eq_tiered (best : Option (Symbol × Occurrence))
    (occurrences : List (Symbol × Occurrence)) :
    heaviest best occurrences = tiered (best.toList ++ occurrences) := by
  induction occurrences generalizing best with
  | nil =>
      cases best with
      | none => rfl
      | some o => exact (tiered_singleton o).symm
  | cons next rest ih =>
      rw [heaviest]
      cases best with
      | none => exact ih (some next)
      | some o =>
          simp only [Option.all_some, decide_eq_true_eq]
          split
          · rename_i hlt
            rw [ih]
            exact (tiered_of_lt o.1 next.1 rest hlt).symm
          · rename_i hle
            rw [ih]
            exact (tiered_of_le o.1 next.1 rest (Nat.not_lt.mp hle)).symm

end Table

/-! ### Tiers of symbols -/

namespace Symbol

/-- Whether a call of the symbol touches a position. -/
def calledAt (p : Position) (s : Symbol) : Bool := s.calls.any (·.span.contains p)

/-- Whether a reference to the symbol touches a position. -/
def referredAt (p : Position) (s : Symbol) : Bool := s.references.any (·.contains p)

theorem contains_templateOccurrencesAt (s : Symbol) (p : Position) (o : Occurrence) :
    (s.templateOccurrencesAt p).contains o =
      match o with
      | .templateDefinition => s.definedAt p
      | .call => s.calledAt p
      | .definition | .reference => false := by
  rw [Bool.eq_iff_iff, List.contains_iff_mem, mem_templateOccurrencesAt_iff]
  cases o <;> simp [calledAt]

theorem contains_plainOccurrencesAt (s : Symbol) (p : Position) (o : Occurrence) :
    (s.plainOccurrencesAt p).contains o =
      match o with
      | .definition => s.definedAt p
      | .reference => s.referredAt p
      | .templateDefinition | .call => false := by
  rw [Bool.eq_iff_iff, List.contains_iff_mem, mem_plainOccurrencesAt_iff]
  cases o <;> simp [referredAt]

end Symbol

/-- The first occurrence of some kind belongs to the first symbol that occurs so. -/
theorem find?_occurrences (occurrences : Symbol → List Occurrence) (o : Occurrence)
    (symbols : List Symbol) :
    ((symbols.flatMap fun s => (occurrences s).map (s, ·)).find? (·.2 == o)).map Prod.fst =
      symbols.find? fun s => (occurrences s).contains o := by
  induction symbols with
  | nil => rfl
  | cons s symbols ih =>
      have hown : (((occurrences s).map (s, ·)).find? (·.2 == o)).map Prod.fst =
          if (occurrences s).contains o then some s else none := by
        induction occurrences s with
        | nil => rfl
        | cons next rest ih' =>
            rw [List.map_cons, List.contains_cons]
            by_cases hnext : next = o
            · rw [List.find?_cons_of_pos (by simpa using hnext)]
              simp [hnext]
            · rw [List.find?_cons_of_neg (by simpa using hnext), ih']
              simp [Ne.symm hnext]
      rw [List.flatMap_cons, List.find?_append, Option.map_or, ih, hown, List.find?_cons]
      cases (occurrences s).contains o <;> rfl

namespace Table

theorem find?_occurrencesAt (table : Table) (p : Position) (o : Occurrence) :
    ((table.occurrencesAt p).find? (·.2 == o)).map Prod.fst =
      match o with
      | .templateDefinition => table.templates.find? (·.definedAt p)
      | .call => table.templates.find? (·.calledAt p)
      | .definition => table.plain.find? (·.definedAt p)
      | .reference => table.plain.find? (·.referredAt p) := by
  rw [occurrencesAt, List.find?_append, Option.map_or, find?_occurrences, find?_occurrences]
  have hnever (symbols : List Symbol) : symbols.find? (fun _ => false) = none :=
    List.find?_eq_none.mpr (by simp)
  simp only [Symbol.contains_templateOccurrencesAt, Symbol.contains_plainOccurrencesAt]
  cases o <;> simp [hnever]

/-- The four searches, one after the other. -/
theorem symbolAt?_eq_tiers (table : Table) (p : Position) :
    table.symbolAt? p =
      ((table.templates.find? (·.definedAt p)).or <|
        (table.templates.find? (·.calledAt p)).or <|
          (table.plain.find? (·.definedAt p)).or <|
            table.plain.find? (·.referredAt p)) := by
  rw [symbolAt?, heaviest_eq_tiered, Option.toList_none, List.nil_append, tiered]
  simp only [Option.map_or, find?_occurrencesAt]

end Table

/-! ### What touches a position -/

namespace Symbol

/-- The places at which a symbol is mentioned: the name in its definition, and its uses. -/
def spans (s : Symbol) : List Span := s.definition.toList.map (·.nameSpan) ++ s.useSpans

theorem map_span_mentions (s : Symbol) : s.mentions.map Mention.span = s.spans := by
  simp [mentions, spans, useSpans, Function.comp_def]

/-- Whether the symbol is mentioned at a position. -/
def touchedAt (p : Position) (s : Symbol) : Bool := s.spans.any (·.contains p)

theorem touchedAt_eq (p : Position) (s : Symbol) :
    s.touchedAt p = (s.definedAt p || (s.referredAt p || s.calledAt p)) := by
  rw [touchedAt, spans, useSpans, List.any_append, List.any_append, List.any_map, List.any_map,
    definedAt, referredAt, calledAt]
  cases s.definition <;> simp [Function.comp_def]

end Symbol

namespace Table

theorem mentions_untouched_iff (table : Table) (p : Position) :
    (∀ m ∈ table.mentions, m.span.contains p = false) ↔
      ∀ s ∈ table.symbols, s.touchedAt p = false := by
  simp only [Symbol.touchedAt, ← Symbol.map_span_mentions, List.any_map, List.any_eq_false,
    Function.comp_apply, Bool.not_eq_true, mentions, List.mem_flatMap]
  constructor
  · exact fun h s hs m hm => h m ⟨s, hs, hm⟩
  · rintro h m ⟨s, hs, hm⟩
    exact h s hs m hm

/-- A symbol that is found is one of the table and is mentioned at the position. -/
theorem touchedAt_of_symbolAt? {table : Table} {p : Position} {s : Symbol}
    (h : table.symbolAt? p = some s) : s ∈ table.symbols ∧ s.touchedAt p = true := by
  have hdefined (hat : s.definedAt p = true) : s.touchedAt p = true := by
    simp [Symbol.touchedAt_eq, hat]
  have hcalled (hat : s.calledAt p = true) : s.touchedAt p = true := by
    simp [Symbol.touchedAt_eq, hat]
  have hreferred (hat : s.referredAt p = true) : s.touchedAt p = true := by
    simp [Symbol.touchedAt_eq, hat]
  simp only [symbolAt?_eq_tiers, Option.or_eq_some_iff] at h
  rcases h with h | ⟨-, h | ⟨-, h | ⟨-, h⟩⟩⟩
  · exact ⟨List.mem_append_left _ (List.mem_of_find?_eq_some h), hdefined (List.find?_some h)⟩
  · exact ⟨List.mem_append_left _ (List.mem_of_find?_eq_some h), hcalled (List.find?_some h)⟩
  · exact ⟨List.mem_append_right _ (List.mem_of_find?_eq_some h), hdefined (List.find?_some h)⟩
  · exact ⟨List.mem_append_right _ (List.mem_of_find?_eq_some h), hreferred (List.find?_some h)⟩

/-- In a table that comes about by operations, a position without a symbol is one that nothing
touches: a template has no references and a plain symbol no calls, which would go unseen. -/
theorem symbolAt?_run_eq_none_iff (ops : List Operation) (p : Position) :
    (empty.run ops).symbolAt? p = none ↔
      ∀ s ∈ (empty.run ops).symbols, s.touchedAt p = false := by
  constructor
  · intro hnone s hs
    simp only [symbolAt?_eq_tiers, Option.or_eq_none_iff, List.find?_eq_none,
      Bool.not_eq_true] at hnone
    obtain ⟨htemplate, hcall, hdefinition, hreference⟩ := hnone
    rw [Symbol.touchedAt_eq]
    rcases List.mem_append.mp hs with hs | hs
    · have hreferences : s.references = [] := by
        obtain ⟨name, rfl⟩ := exists_after_of_mem .template hs
        rw [template_after]
      rw [htemplate s hs, hcall s hs, Symbol.referredAt, hreferences]
      rfl
    · have hcalls : s.calls = [] := by
        obtain ⟨name, rfl⟩ := exists_after_of_mem .plain hs
        rw [plain_after]
      rw [hdefinition s hs, hreference s hs, Symbol.calledAt, hcalls]
      rfl
  · intro hnone
    cases hfound : (empty.run ops).symbolAt? p with
    | none => rfl
    | some s =>
        obtain ⟨hs, htouched⟩ := touchedAt_of_symbolAt? hfound
        rw [hnone s hs] at htouched
        cases htouched

end Table

/-! ### Answers about a document -/

namespace Server

variable {ε : Type} (editor : Editor ε)

theorem locations_of_takes (uri : String) {spans : List Span} (h : ∀ s ∈ spans, editor.Takes s) :
    locations editor (.text uri) spans = .ok (spans.map (⟨uri, ·⟩)) := by
  unfold locations
  rw [editor.express_eq_ok_iff.mpr h]
  cases spans <;> rfl

theorem locations_of_not_takes (document : Json) {spans : List Span}
    (h : ¬∀ s ∈ spans, editor.Takes s) :
    ∃ e, locations editor document spans = .error (.editor e) := by
  unfold locations
  obtain ⟨e, he⟩ := editor.exists_express_eq_error h
  rw [he]
  exact ⟨e, rfl⟩

section References

variable {server : Server} {document : Json} {a : Analysis} {p : Position}
  (ha : server.analysis? document = .ok (some a))
include ha

theorem references_of_none (h : a.table.symbolAt? p = none) (withDefinition : Bool) :
    server.references editor document p withDefinition = .ok none := by
  unfold references symbolAt?
  rw [ha]
  simp only [bind, Except.bind, pure, Except.pure, Except.mapError, Option.bind_some, h]

theorem references_of_some {s : Symbol} (h : a.table.symbolAt? p = some s) :
    server.references editor document p true = (locations editor document s.spans).map some := by
  unfold references symbolAt?
  rw [ha]
  simp only [bind, Except.bind, pure, Except.pure, Except.mapError, Option.bind_some, h, if_true]
  rfl

/-- The answer is empty just if there is no symbol, whatever the editor can express. -/
theorem references_eq_none_iff :
    server.references editor document p true = .ok none ↔ a.table.symbolAt? p = none := by
  cases hfound : a.table.symbolAt? p with
  | none => exact iff_of_true (references_of_none editor ha hfound true) rfl
  | some s =>
      refine iff_of_false ?_ (by simp)
      rw [references_of_some editor ha hfound]
      cases locations editor document s.spans <;> simp [Except.map]

end References

/-- The answer about a symbol is the list of its places just if the editor can express them. -/
theorem references_eq_some_iff {server : Server} {uri : String} {a : Analysis} {p : Position}
    {s : Symbol} (ha : server.analysis? (.text uri) = .ok (some a))
    (hfound : a.table.symbolAt? p = some s) :
    server.references editor (.text uri) p true = .ok (some (s.spans.map (⟨uri, ·⟩))) ↔
      ∀ span ∈ s.spans, editor.Takes span := by
  rw [references_of_some editor ha hfound]
  constructor
  · intro hanswer
    by_contra htakes
    obtain ⟨e, he⟩ := locations_of_not_takes editor (.text uri) htakes
    rw [he] at hanswer
    cases hanswer
  · intro htakes
    rw [locations_of_takes editor uri htakes]
    rfl

end Server

/-! ### What an editor can express -/

namespace Editor

variable {ε : Type} (editor : Editor ε)

/-- The editor can express every position with coordinates up to a bound. -/
def TakesUpTo (bound : Nat) : Prop :=
  ∀ p : Position, p.line ≤ bound → p.column ≤ bound → editor.position p = .ok ()

/-- The editor can express every place that a table mentions. -/
def Expresses (table : Table) : Prop := ∀ m ∈ table.mentions, editor.Takes m.span

variable {editor}

theorem Expresses.spans {table : Table} (h : editor.Expresses table) {s : Symbol}
    (hs : s ∈ table.symbols) : ∀ span ∈ s.spans, editor.Takes span := by
  intro span hspan
  rw [← s.map_span_mentions] at hspan
  obtain ⟨m, hm, rfl⟩ := List.mem_map.mp hspan
  exact h m (Table.mention_mem hs hm)

/-- A place of a text has coordinates that are at most its length. -/
theorem TakesUpTo.position_of_holds {text : String} (h : editor.TakesUpTo text.length)
    {p : Position} (hp : (Source.ofText text).Holds p) : editor.position p = .ok () := by
  obtain ⟨line, hline, hcolumn⟩ := hp
  have htext : text.toList.length = text.length := String.length_toList
  refine h p ?_ ?_
  · have hlt : p.line < (splitLines text.toList).length := (List.getElem?_eq_some_iff.mp hline).1
    have hcount : text.toList.count '\n' ≤ text.toList.length := List.count_le_length
    rw [length_splitLines] at hlt
    omega
  · obtain ⟨before, after, hjoin, -⟩ := Source.joinLines_split hline
    have hlength := congrArg List.length hjoin
    simp only [Source.ofText, joinLines_splitLines, List.length_append] at hlength
    omega

theorem TakesUpTo.expresses {text : String} (h : editor.TakesUpTo text.length) {g : Grammar}
    (hg : Grammar.ofText text = .ok g) : editor.Expresses g.table := by
  intro m hm
  rw [ofText_eq_run] at hg
  rw [← Except.ok.inj hg] at hm
  have hreads := reads_readItems .declarations (scan text)
  obtain ⟨t, ht⟩ := (grounded_run hreads (scan_starts_apart text)).ofToken m hm
  obtain ⟨hstart, hstop⟩ := ht.bears.inside
  exact ⟨h.position_of_holds hstart, h.position_of_holds hstop⟩

end Editor

/-! ### Tables and documents -/

namespace Table

/-- The symbol at a position, in a table that comes about by operations.  It is the first template,
in the order of first mention, whose defining name touches the position; failing that, the first
template with a call there; failing that, the first plain symbol whose defining name touches the
position; failing that, the first plain symbol with a reference there.  There is none just if
nothing in the table touches the position.

In a document with such a table, asking for the references with the definition gives nothing just if
nothing touches the position, whatever the protocol of the editor can express.  Otherwise there is a
symbol, one of its places contains the position, and the answer is the list of its places just if
the editor can express them.  With an editor that can express what the table mentions, the answer is
a list of places in the document of which one contains the position; such an editor is, for the
table of a text, each one that can express positions with coordinates up to the length of the
text. -/
theorem symbolAt?_first_of_tiers (ops : List Operation) (p : Position) :
    ((empty.run ops).symbolAt? p =
      ((((Side.template.names ops).filterMap (empty.run ops).template?).find? (·.definedAt p)).or <|
        (((Side.template.names ops).filterMap (empty.run ops).template?).find? (·.calledAt p)).or <|
          (((Side.plain.names ops).filterMap (empty.run ops).plain?).find? (·.definedAt p)).or <|
            ((Side.plain.names ops).filterMap (empty.run ops).plain?).find? (·.referredAt p))) ∧
    ((empty.run ops).symbolAt? p = none ↔
      ∀ m ∈ (empty.run ops).mentions, m.span.contains p = false) ∧
    ∀ {ε : Type} (editor : Editor ε) (server : Server) (uri : String) (a : Analysis),
      server.analysis? (.text uri) = .ok (some a) → a.table = empty.run ops →
        (server.references editor (.text uri) p true = .ok none ↔
          ∀ m ∈ a.table.mentions, m.span.contains p = false) ∧
        ((∃ m ∈ a.table.mentions, m.span.contains p = true) →
          (∃ s, a.table.symbolAt? p = some s ∧ (∃ span ∈ s.spans, span.contains p = true) ∧
            (server.references editor (.text uri) p true =
                .ok (some (s.spans.map (⟨uri, ·⟩))) ↔
              ∀ span ∈ s.spans, editor.Takes span)) ∧
          (editor.Expresses a.table →
            ∃ places, server.references editor (.text uri) p true = .ok (some places) ∧
              (∀ place ∈ places, place.document = uri) ∧
              ∃ place ∈ places, place.span.contains p = true)) ∧
        ∀ last, Grammar.ofText a.text = .ok ⟨a.table, last⟩ →
          editor.TakesUpTo a.text.length → editor.Expresses a.table := by
  have hnone := symbolAt?_run_eq_none_iff ops p
  rw [← mentions_untouched_iff] at hnone
  refine ⟨?_, hnone, ?_⟩
  · have htemplates : (Side.template.names ops).filterMap (empty.run ops).template? =
        (empty.run ops).templates := (symbols_run_eq_filterMap .template ops).symm
    have hplain : (Side.plain.names ops).filterMap (empty.run ops).plain? =
        (empty.run ops).plain := (symbols_run_eq_filterMap .plain ops).symm
    rw [htemplates, hplain, symbolAt?_eq_tiers]
  · intro ε editor server uri a ha htable
    rw [← htable] at hnone
    refine ⟨(Server.references_eq_none_iff editor ha).trans hnone, ?_, fun last htext hbound =>
      hbound.expresses htext⟩
    rintro ⟨m, hm, hcontains⟩
    cases hfound : a.table.symbolAt? p with
    | none =>
        rw [hnone.mp hfound m hm] at hcontains
        cases hcontains
    | some s =>
        obtain ⟨hs, htouched⟩ := touchedAt_of_symbolAt? hfound
        obtain ⟨span, hspan, hat⟩ := List.any_eq_true.mp htouched
        have hanswer := Server.references_eq_some_iff editor ha hfound
        refine ⟨⟨s, rfl, ⟨span, hspan, hat⟩, hanswer⟩, fun hexpresses => ?_⟩
        refine ⟨_, hanswer.mpr (hexpresses.spans hs), ?_, ⟨uri, span⟩, ?_, hat⟩
        · exact List.forall_mem_map.mpr fun _ _ => rfl
        · exact List.mem_map_of_mem hspan

/-- A template that is called around the name of a plain symbol. -/
def aroundHistory : List Operation :=
  [.define "item" .rule ⟨lineHead 1, lineHead 1⟩, .refer "item" (lineHead 2),
    .call "list" ⟨⟨⟨0, 5⟩, ⟨1, 9⟩, by decide⟩, ["item"]⟩,
    .defineTemplate "list" ["X"] ⟨lineHead 3, lineHead 3⟩]

/-- A document with the table of that history. -/
def aroundAnalysis : Analysis := ⟨"", empty.run aroundHistory, []⟩

/-- A server with that document. -/
def aroundServer : Server :=
  { Server.initial with documents := ⟨.default, .object [], [(.text "a.y", aroundAnalysis)]⟩ }

/-- On the name in the definition of the plain symbol, the template is found by its call. -/
theorem aroundServer_references :
    aroundServer.analysis? (.text "a.y") = .ok (some aroundAnalysis) ∧
      Editor.unbounded.Expresses aroundAnalysis.table ∧
      (aroundAnalysis.table.symbolAt? ⟨1, 2⟩).map Symbol.name = some "list" ∧
      (∃ places, aroundServer.references .unbounded (.text "a.y") ⟨1, 2⟩ true = .ok (some places) ∧
        ∃ place ∈ places, place.span.contains ⟨1, 2⟩ = true) ∧
      aroundServer.references .unbounded (.text "a.y") ⟨4, 0⟩ true = .ok none := by
  have hopen : aroundServer.analysis? (.text "a.y") = .ok (some aroundAnalysis) := by decide +kernel
  have hexpresses : Editor.unbounded.Expresses aroundAnalysis.table := fun _ _ => ⟨rfl, rfl⟩
  obtain ⟨-, -, htouched⟩ := symbolAt?_first_of_tiers aroundHistory ⟨1, 2⟩
  obtain ⟨-, -, hfree⟩ := symbolAt?_first_of_tiers aroundHistory ⟨4, 0⟩
  obtain ⟨-, hplaces, -⟩ := htouched .unbounded aroundServer "a.y" aroundAnalysis hopen rfl
  obtain ⟨hnothing, -, -⟩ := hfree .unbounded aroundServer "a.y" aroundAnalysis hopen rfl
  obtain ⟨places, hanswer, -, hat⟩ := (hplaces (by decide +kernel)).2 hexpresses
  refine ⟨hopen, hexpresses, by decide +kernel, ⟨places, hanswer, hat⟩, ?_⟩
  exact hnothing.mpr (by decide +kernel)

end Table

end GrammarLens
