import GrammarLens.Proofs.History
import GrammarLens.Proofs.Mentions
import GrammarLens.Symbol.Lookup

/-! # The symbol under a caret

Looking up a position goes through all occurrences that touch it and takes the first one of the
highest rank (`symbolAt?_eq_some`).  That this is the symbol whose name stands there rests on three
facts about the table of a text, which `Table.Grounded` collects: every mention comes from a token,
no two mentions start at the same place, and a name stands once on each side of the table.  So a
caret that touches one token only sees definitions and references of that token alone
(`Grounded.of_contains`), and at most one of them.  Calls are wider than their name and may lie
around the caret as well; the main statement, `symbolAt?_of_touches`, says what they change. -/

namespace GrammarLens

/-! ### Carets and spans -/

theorem Span.contains_iff (s : Span) (p : Position) :
    s.contains p = true ↔ s.start ≤ p ∧ p ≤ s.stop := by
  have hspan := s.start_le_stop
  simp only [Position.le_def] at hspan ⊢
  unfold Span.contains
  split
  · simp only [Bool.false_eq_true, false_iff]
    omega
  split
  · simp only [Bool.false_eq_true, false_iff]
    omega
  split
  · simp only [Bool.false_eq_true, false_iff]
    omega
  · simp only [true_iff]
    omega

/-- A caret at the position touches the token: it stands before, in or right behind it. -/
def Token.Touches (t : Token) (p : Position) : Prop :=
  t.line = p.line ∧ t.column ≤ p.column ∧ (p.column : Int) ≤ t.column + t.length

instance (t : Token) (p : Position) : Decidable (t.Touches p) :=
  inferInstanceAs (Decidable (_ ∧ _ ∧ _))

theorem Token.Placed.contains_place_iff {t : Token} (h : t.Placed) (p : Position) :
    t.place.contains p = true ↔ t.Touches p := by
  obtain ⟨hl, hc, hn⟩ := h
  rw [Span.contains_iff]
  simp only [Position.le_def, Token.place_start, Token.place_stop, Token.start, Token.stop,
    Token.Touches]
  omega

/-! ### The heaviest occurrence -/

namespace Table

/-- What is found is one of the occurrences, and none of them outranks it. -/
theorem heaviest_spec (best : Symbol × Occurrence) (occurrences : List (Symbol × Occurrence)) :
    ∃ o ∈ best :: occurrences, heaviest (some best) occurrences = some o ∧
      ∀ o' ∈ best :: occurrences, o'.2.rank ≤ o.2.rank := by
  induction occurrences generalizing best with
  | nil => exact ⟨best, by simp, rfl, by simp⟩
  | cons next rest ih =>
      unfold heaviest
      simp only [Option.all_some, decide_eq_true_eq]
      split
      · rename_i hlt
        obtain ⟨o, hmem, heq, hmax⟩ := ih next
        refine ⟨o, List.mem_cons_of_mem best hmem, heq, ?_⟩
        intro o' ho'
        rcases List.mem_cons.mp ho' with rfl | ho'
        · have := hmax next List.mem_cons_self
          omega
        · exact hmax o' ho'
      · rename_i hle
        obtain ⟨o, hmem, heq, hmax⟩ := ih best
        have hbest := hmax best List.mem_cons_self
        refine ⟨o, ?_, heq, ?_⟩
        · rcases List.mem_cons.mp hmem with rfl | hmem
          · exact List.mem_cons_self
          · exact List.mem_cons_of_mem _ (List.mem_cons_of_mem _ hmem)
        · intro o' ho'
          rcases List.mem_cons.mp ho' with rfl | ho'
          · exact hbest
          rcases List.mem_cons.mp ho' with rfl | ho'
          · omega
          · exact hmax o' (List.mem_cons_of_mem best ho')

/-- A symbol is found if it occurs at the position and is the only one to do so with as high a
rank. -/
theorem symbolAt?_eq_some {table : Table} {p : Position} {s : Symbol} {o : Occurrence}
    (hmem : (s, o) ∈ table.occurrencesAt p)
    (honly : ∀ s' o', (s', o') ∈ table.occurrencesAt p → o.rank ≤ o'.rank → s' = s) :
    table.symbolAt? p = some s := by
  unfold symbolAt?
  cases hocc : table.occurrencesAt p with
  | nil =>
      rw [hocc] at hmem
      cases hmem
  | cons first rest =>
      obtain ⟨⟨s', o'⟩, hfound, heq, hmax⟩ := heaviest_spec first rest
      rw [hocc] at hmem honly
      have hs : s' = s := honly s' o' hfound (hmax (s, o) hmem)
      have hfirst : heaviest none (first :: rest) = heaviest (some first) rest := by
        simp [heaviest]
      rw [hfirst, heq, ← hs]
      rfl

theorem mem_occurrencesAt_iff {table : Table} {p : Position} {s : Symbol} {o : Occurrence} :
    (s, o) ∈ table.occurrencesAt p ↔
      (s ∈ table.templates ∧ o ∈ s.templateOccurrencesAt p) ∨
        (s ∈ table.plain ∧ o ∈ s.plainOccurrencesAt p) := by
  simp [occurrencesAt]

end Table

/-- A mark for one fact and a mark for each of some others. -/
theorem mem_marks_iff {α β : Type} {a b o : α} {fact : Bool} {holds : β → Bool} {xs : List β} :
    o ∈ (if fact then [a] else []) ++ (xs.filter holds).map (fun _ => b) ↔
      (o = a ∧ fact = true) ∨ (o = b ∧ ∃ x ∈ xs, holds x = true) := by
  rw [List.mem_append]
  refine or_congr ?_ ?_
  · cases fact <;> simp
  · simp only [List.mem_map, List.mem_filter]
    constructor
    · rintro ⟨x, ⟨hx, hholds⟩, rfl⟩
      exact ⟨rfl, x, hx, hholds⟩
    · rintro ⟨rfl, x, hx, hholds⟩
      exact ⟨x, ⟨hx, hholds⟩, rfl⟩

namespace Symbol

variable {s : Symbol} {p : Position} {o : Occurrence}

theorem mem_templateOccurrencesAt_iff :
    o ∈ s.templateOccurrencesAt p ↔
      (o = .templateDefinition ∧ s.definedAt p = true) ∨
        (o = .call ∧ ∃ c ∈ s.calls, c.span.contains p = true) := mem_marks_iff

theorem mem_plainOccurrencesAt_iff :
    o ∈ s.plainOccurrencesAt p ↔
      (o = .definition ∧ s.definedAt p = true) ∨
        (o = .reference ∧ ∃ r ∈ s.references, r.contains p = true) := mem_marks_iff

/-- A call outranks whatever a plain symbol occurs as. -/
theorem rank_lt_of_mem_plainOccurrencesAt (h : o ∈ s.plainOccurrencesAt p) :
    o.rank < Occurrence.call.rank := by
  rcases mem_plainOccurrencesAt_iff.mp h with ⟨rfl, -⟩ | ⟨rfl, -⟩
  · decide
  · decide

theorem definedAt_iff :
    s.definedAt p = true ↔ ∃ d, s.definition = some d ∧ d.nameSpan.contains p = true := by
  rw [definedAt, Option.any_eq_true]

end Symbol

/-! ### Tables that come from tokens -/

/-- The table comes from the tokens: each mention in it is one of a token, no two mentions start at
the same place, and no name stands twice on one side. -/
structure Table.Grounded (ts : List Token) (table : Table) : Prop where
  ofToken : ∀ m ∈ table.mentions, ∃ t, m.OfToken ts t
  apart : table.mentions.Pairwise fun m m' => m.span.start ≠ m'.span.start
  templates : (table.templates.map Symbol.name).Nodup
  plain : (table.plain.map Symbol.name).Nodup

theorem Mention.OfToken.start_eq {ts : List Token} {t : Token} {m : Mention}
    (h : m.OfToken ts t) : m.span.start = t.start := by
  by_cases hr : m.role = .call
  · obtain ⟨last, -, hs⟩ := h.call_eq hr
    rw [hs, Token.through_start]
  · rw [h.span_eq hr, Token.place_start]

theorem scan_starts_apart (text : String) :
    (scan text).Pairwise fun t u => t.start ≠ u.start := by
  have hplaced := placed_scan text
  refine (pairwise_scan_columns text).imp_of_mem ?_
  intro t u ht hu hcolumns heq
  obtain ⟨htl, htc, -⟩ := hplaced t ht
  obtain ⟨hul, huc, -⟩ := hplaced u hu
  simp only [Token.start, Position.mk.injEq] at heq
  omega

theorem grounded_run {ts : List Token} {items : List Item} (h : Reads ts items)
    (hstarts : ts.Pairwise fun t u => t.start ≠ u.start) :
    (Table.empty.run (items.flatMap Item.operations)).Grounded ts where
  ofToken := by
    intro m hm
    obtain ⟨o, ho, rfl⟩ := List.mem_map.mp ((mentions_run_subperm items).subset hm)
    exact ⟨o.1, h.mention_ofToken o ho⟩
  apart := by
    have htokens := pairwise_of_subperm Ne.symm h.mentions_fst_subperm hstarts
    refine pairwise_of_subperm Ne.symm (mentions_run_subperm items) ?_
    rw [List.pairwise_map] at htokens ⊢
    refine htokens.imp_of_mem ?_
    intro a b ha hb hne
    rw [(h.mention_ofToken a ha).start_eq, (h.mention_ofToken b hb).start_eq]
    exact hne
  templates := by
    have hnames := Table.names_run .template (items.flatMap Item.operations)
    simp only [Table.Side.symbols] at hnames
    rw [hnames]
    exact nodup_eraseDups _
  plain := by
    have hnames := Table.names_run .plain (items.flatMap Item.operations)
    simp only [Table.Side.symbols] at hnames
    rw [hnames]
    exact nodup_eraseDups _

/-! ### A caret that touches one token -/

/-- The token is recorded as the name in the definition of the symbol. -/
def Symbol.DefinedBy (s : Symbol) (t : Token) : Prop :=
  ∃ d, s.definition = some d ∧ t.span = .ok d.nameSpan

/-- The token is recorded as a reference to the symbol. -/
def Symbol.ReferredBy (s : Symbol) (t : Token) : Prop := ∃ r ∈ s.references, t.span = .ok r

/-- The calls that lie around a position, each with the template that it calls. -/
def Table.callsAt (table : Table) (p : Position) : List (Symbol × Call) :=
  table.templates.flatMap fun s => (s.calls.filter (·.span.contains p)).map (s, ·)

theorem Table.mem_callsAt_iff {table : Table} {p : Position} {s : Symbol} {c : Call} :
    (s, c) ∈ table.callsAt p ↔ s ∈ table.templates ∧ c ∈ s.calls ∧ c.span.contains p = true := by
  simp [Table.callsAt]

section Mentions

variable {table : Table} {s : Symbol}

theorem definition_mem_mentions {d : Definition} (hd : s.definition = some d) :
    ⟨s.name, .definition, d.nameSpan⟩ ∈ s.mentions := by
  simp [Symbol.mentions, hd]

theorem reference_mem_mentions {r : Span} (hr : r ∈ s.references) :
    ⟨s.name, .reference, r⟩ ∈ s.mentions := by
  simp [Symbol.mentions, hr]

theorem call_mem_mentions {c : Call} (hc : c ∈ s.calls) : ⟨s.name, .call, c.span⟩ ∈ s.mentions := by
  simp only [Symbol.mentions, List.mem_append, List.mem_map]
  exact Or.inr (Or.inr ⟨c, hc, rfl⟩)

theorem Table.mention_mem {m : Mention} (hs : s ∈ table.symbols) (hm : m ∈ s.mentions) :
    m ∈ table.mentions := List.mem_flatMap.mpr ⟨s, hs, hm⟩

end Mentions

namespace Table.Grounded

variable {ts : List Token} {table : Table} {s s' : Symbol}

theorem template_eq (h : table.Grounded ts) (hs : s ∈ table.templates)
    (hs' : s' ∈ table.templates) (hname : s.name = s'.name) : s = s' :=
  List.inj_on_of_nodup_map h.templates hs hs' hname

theorem plain_eq (h : table.Grounded ts) (hs : s ∈ table.plain) (hs' : s' ∈ table.plain)
    (hname : s.name = s'.name) : s = s' :=
  List.inj_on_of_nodup_map h.plain hs hs' hname

/-- What a template and a plain symbol are mentioned for starts at different places. -/
theorem sides_apart (h : table.Grounded ts) {m m' : Mention} (hs : s ∈ table.templates)
    (hm : m ∈ s.mentions) (hs' : s' ∈ table.plain) (hm' : m' ∈ s'.mentions) :
    m.span.start ≠ m'.span.start := by
  have happart := h.apart
  rw [Table.mentions, Table.symbols, List.flatMap_append] at happart
  obtain ⟨-, -, hcross⟩ := List.pairwise_append.mp happart
  exact hcross m (List.mem_flatMap.mpr ⟨s, hs, hm⟩) m' (List.mem_flatMap.mpr ⟨s', hs', hm'⟩)

/-- No token names a template and a plain symbol. -/
theorem not_both (h : table.Grounded ts) {t : Token} (hs : s ∈ table.templates)
    (hdef : s.DefinedBy t) (hs' : s' ∈ table.plain) :
    ¬ (s'.DefinedBy t ∨ s'.ReferredBy t) := by
  obtain ⟨d, hd, hspan⟩ := hdef
  rintro (⟨d', hd', hspan'⟩ | ⟨r, hr, hspan'⟩)
  · have heq : d.nameSpan = d'.nameSpan := Except.ok.inj (hspan.symm.trans hspan')
    exact h.sides_apart hs (definition_mem_mentions hd) hs' (definition_mem_mentions hd')
      (congrArg Span.start heq)
  · have heq : d.nameSpan = r := Except.ok.inj (hspan.symm.trans hspan')
    exact h.sides_apart hs (definition_mem_mentions hd) hs' (reference_mem_mentions hr)
      (congrArg Span.start heq)

end Table.Grounded

theorem SymbolList.get?_of_mem {symbols : SymbolList} (h : (symbols.map Symbol.name).Nodup)
    {s : Symbol} (hs : s ∈ symbols) : symbols.get? s.name = some s := by
  cases hfound : symbols.get? s.name with
  | none => exact absurd (List.find?_eq_none.mp hfound s hs) (by simp)
  | some s' =>
      have hname : s'.name = s.name := by simpa using List.find?_some hfound
      rw [List.inj_on_of_nodup_map h (List.mem_of_find?_eq_some hfound) hs hname]

/-- The caret touches the token at the index, and no other one but perhaps the end mark. -/
structure TouchesOnly (ts : List Token) (i : Fin ts.length) (p : Position) : Prop where
  touches : (ts.get i).Touches p
  alone : ∀ j, j ≠ i → (ts.get j).isEnd = false → ¬ (ts.get j).Touches p

theorem TouchesOnly.eq_get {ts : List Token} {i : Fin ts.length} {p : Position}
    (h : TouchesOnly ts i p) {u : Token} (hu : u ∈ ts) (hend : u.isEnd = false)
    (ht : u.Touches p) : u = ts.get i := by
  obtain ⟨j, rfl⟩ := List.get_of_mem hu
  by_cases hj : j = i
  · rw [hj]
  · exact absurd ht (h.alone j hj hend)

theorem Token.Naming.isEnd_eq_false {t : Token} (h : t.Naming) : t.isEnd = false := by
  rcases h with hk | hk
  · exact Token.isEnd_of_kind hk (by decide)
  · exact Token.isEnd_of_kind hk (by decide)

section Caret

variable {ts : List Token} {table : Table} {i : Fin ts.length} {p : Position} {s : Symbol}
  (h : table.Grounded ts) (hplaced : ∀ t ∈ ts, t.Placed) (hcaret : TouchesOnly ts i p)
include h hplaced hcaret

/-- A definition or a reference at the caret is recorded for the token there. -/
theorem Table.Grounded.of_contains {m : Mention} (hm : m ∈ table.mentions) (hr : m.role ≠ .call)
    (hc : m.span.contains p = true) : m.span = (ts.get i).place ∧ m.name = (ts.get i).value := by
  obtain ⟨u, hu⟩ := h.ofToken m hm
  have hspan := hu.span_eq hr
  have htouch : u.Touches p := by
    rw [hspan] at hc
    exact ((hplaced u hu.mem).contains_place_iff p).mp hc
  have hget := hcaret.eq_get hu.mem hu.naming.isEnd_eq_false htouch
  rw [← hget]
  exact ⟨hspan, hu.name_eq⟩

theorem Table.Grounded.definedBy_of_definedAt (hs : s ∈ table.symbols)
    (hd : s.definedAt p = true) : s.DefinedBy (ts.get i) ∧ s.name = (ts.get i).value := by
  obtain ⟨d, hdef, hc⟩ := Symbol.definedAt_iff.mp hd
  obtain ⟨hspan, hname⟩ := h.of_contains hplaced hcaret
    (Table.mention_mem hs (definition_mem_mentions hdef)) (by simp) hc
  refine ⟨⟨d, hdef, ?_⟩, hname⟩
  rw [Token.span_eq_place (hplaced _ (List.get_mem ts i)), ← hspan]

omit h in
/-- The caret touches what is recorded for the token there. -/
theorem TouchesOnly.contains {span : Span} (hspan : (ts.get i).span = .ok span) :
    span.contains p = true := by
  have hp := hplaced _ (List.get_mem ts i)
  rw [Token.span_eq_place hp] at hspan
  rw [← Except.ok.inj hspan]
  exact (hp.contains_place_iff p).mpr hcaret.touches

/-- The name of a template in its definition leads to the template. -/
theorem Table.Grounded.symbolAt?_template (hs : s ∈ table.templates)
    (hdef : s.DefinedBy (ts.get i)) : table.symbolAt? p = some s := by
  have hsymbols : ∀ {u}, u ∈ table.templates → u ∈ table.symbols := List.mem_append_left _
  obtain ⟨d, hd, hspan⟩ := hdef
  have hat : s.definedAt p = true :=
    Symbol.definedAt_iff.mpr ⟨d, hd, hcaret.contains hplaced hspan⟩
  have hname := (h.definedBy_of_definedAt hplaced hcaret (hsymbols hs) hat).2
  refine Table.symbolAt?_eq_some (o := .templateDefinition) ?_ ?_
  · exact Table.mem_occurrencesAt_iff.mpr
      (Or.inl ⟨hs, Symbol.mem_templateOccurrencesAt_iff.mpr (Or.inl ⟨rfl, hat⟩)⟩)
  · intro s' o' hmem hrank
    rcases Table.mem_occurrencesAt_iff.mp hmem with ⟨hs', ho⟩ | ⟨-, ho⟩
    · rcases Symbol.mem_templateOccurrencesAt_iff.mp ho with ⟨-, hat'⟩ | ⟨rfl, -⟩
      · have hname' := (h.definedBy_of_definedAt hplaced hcaret (hsymbols hs') hat').2
        exact h.template_eq hs' hs (hname'.trans hname.symm)
      · exact absurd hrank (by decide)
    · have hlt := Symbol.rank_lt_of_mem_plainOccurrencesAt ho
      exact absurd (Nat.lt_of_le_of_lt hrank hlt) (by decide)

/-- Any plain symbol that occurs at the caret is named by the token there. -/
theorem Table.Grounded.name_of_plainOccurrence {o : Occurrence} (hs : s ∈ table.plain)
    (ho : o ∈ s.plainOccurrencesAt p) : s.name = (ts.get i).value := by
  have hsymbols : s ∈ table.symbols := List.mem_append_right _ hs
  rcases Symbol.mem_plainOccurrencesAt_iff.mp ho with ⟨-, hat⟩ | ⟨-, r, hr, hc⟩
  · exact (h.definedBy_of_definedAt hplaced hcaret hsymbols hat).2
  · exact (h.of_contains hplaced hcaret
      (Table.mention_mem hsymbols (reference_mem_mentions hr)) (by simp) hc).2

/-- Outside of calls, a plain name leads to the plain symbol. -/
theorem Table.Grounded.symbolAt?_plain (hs : s ∈ table.plain)
    (hby : s.DefinedBy (ts.get i) ∨ s.ReferredBy (ts.get i)) (hcalls : table.callsAt p = []) :
    s.name = (ts.get i).value ∧ table.symbolAt? p = some s := by
  have hoccurs : ∃ o, o ∈ s.plainOccurrencesAt p := by
    rcases hby with ⟨d, hd, hspan⟩ | ⟨r, hr, hspan⟩
    · have hat : s.definedAt p = true :=
        Symbol.definedAt_iff.mpr ⟨d, hd, hcaret.contains hplaced hspan⟩
      exact ⟨.definition, Symbol.mem_plainOccurrencesAt_iff.mpr (Or.inl ⟨rfl, hat⟩)⟩
    · have hc : r.contains p = true := hcaret.contains hplaced hspan
      exact ⟨.reference, Symbol.mem_plainOccurrencesAt_iff.mpr (Or.inr ⟨rfl, r, hr, hc⟩)⟩
  obtain ⟨o, ho⟩ := hoccurs
  have hname := h.name_of_plainOccurrence hplaced hcaret hs ho
  refine ⟨hname, Table.symbolAt?_eq_some (Table.mem_occurrencesAt_iff.mpr (Or.inr ⟨hs, ho⟩)) ?_⟩
  intro s' o' hmem _
  rcases Table.mem_occurrencesAt_iff.mp hmem with ⟨hs', ho'⟩ | ⟨hs', ho'⟩
  · rcases Symbol.mem_templateOccurrencesAt_iff.mp ho' with ⟨-, hat'⟩ | ⟨-, c, hc, hp⟩
    · -- The token would name a template and a plain symbol.
      have hdef := (h.definedBy_of_definedAt hplaced hcaret (List.mem_append_left _ hs') hat').1
      exact absurd hby (h.not_both hs' hdef hs)
    · have hmem' : (s', c) ∈ table.callsAt p := Table.mem_callsAt_iff.mpr ⟨hs', hc, hp⟩
      rw [hcalls] at hmem'
      cases hmem'
  · exact h.plain_eq hs' hs
      ((h.name_of_plainOccurrence hplaced hcaret hs' ho').trans hname.symm)

/-- Inside of one call, any token leads to the template that is called, unless it is the name in
the definition of a template. -/
theorem Table.Grounded.symbolAt?_call {c : Call}
    (hnot : ∀ s ∈ table.templates, ¬ s.DefinedBy (ts.get i))
    (hcalls : table.callsAt p = [(s, c)]) :
    s ∈ table.templates ∧ c ∈ s.calls ∧ table.symbolAt? p = some s := by
  have hone : (s, c) ∈ table.callsAt p := by rw [hcalls]; exact List.mem_cons_self
  obtain ⟨hs, hc, hp⟩ := Table.mem_callsAt_iff.mp hone
  refine ⟨hs, hc, Table.symbolAt?_eq_some (o := .call) ?_ ?_⟩
  · exact Table.mem_occurrencesAt_iff.mpr
      (Or.inl ⟨hs, Symbol.mem_templateOccurrencesAt_iff.mpr (Or.inr ⟨rfl, c, hc, hp⟩)⟩)
  · intro s' o' hmem hrank
    rcases Table.mem_occurrencesAt_iff.mp hmem with ⟨hs', ho⟩ | ⟨-, ho⟩
    · rcases Symbol.mem_templateOccurrencesAt_iff.mp ho with ⟨-, hat⟩ | ⟨-, c', hc', hp'⟩
      · have hdef := (h.definedBy_of_definedAt hplaced hcaret (List.mem_append_left _ hs') hat).1
        exact absurd hdef (hnot s' hs')
      · have hmem' : (s', c') ∈ table.callsAt p := Table.mem_callsAt_iff.mpr ⟨hs', hc', hp'⟩
        rw [hcalls, List.mem_singleton] at hmem'
        exact congrArg Prod.fst hmem'
    · have hlt := Symbol.rank_lt_of_mem_plainOccurrencesAt ho
      exact absurd hrank (Nat.not_le_of_lt hlt)

end Caret

/-- A call starts with a token that has the name of the template. -/
theorem Table.Grounded.callee {ts : List Token} {table : Table} (h : table.Grounded ts)
    (hplaced : ∀ t ∈ ts, t.Placed) {s : Symbol} {c : Call} (hs : s ∈ table.templates)
    (hc : c ∈ s.calls) :
    ∃ callee ∈ ts, callee.value = s.name ∧
      ∃ own, callee.span = .ok own ∧ own.start = c.span.start := by
  have hm := Table.mention_mem (List.mem_append_left _ hs) (call_mem_mentions hc)
  obtain ⟨callee, hof⟩ := h.ofToken _ hm
  refine ⟨callee, hof.mem, hof.name_eq.symm, callee.place, ?_, hof.start_eq.symm⟩
  exact Token.span_eq_place (hplaced callee hof.mem)

/-- A caret that touches one token of a text and no other one, but perhaps the end mark.  On the
name in the definition of a template it finds the template.  On a plain definition or reference
with no call around it finds the plain symbol with the token's name.  With one call around it finds
the template that is called, wherever in the call it stands, unless on the name in the definition of
a template. -/
theorem symbolAt?_of_touches (text : String) (i : Fin (scan text).length) (p : Position)
    (hcaret : TouchesOnly (scan text) i p) :
    ∃ g, Grammar.ofText text = .ok g ∧
      (∀ s ∈ g.table.templates, s.DefinedBy ((scan text).get i) →
        g.table.symbolAt? p = some s) ∧
      (∀ s ∈ g.table.plain,
        s.DefinedBy ((scan text).get i) ∨ s.ReferredBy ((scan text).get i) →
        g.table.callsAt p = [] →
        g.table.plain? ((scan text).get i).value = some s ∧ g.table.symbolAt? p = some s) ∧
      ((∀ s ∈ g.table.templates, ¬ s.DefinedBy ((scan text).get i)) →
        ∀ s c, g.table.callsAt p = [(s, c)] →
        g.table.symbolAt? p = some s ∧
        ∃ callee ∈ scan text, g.table.template? callee.value = some s ∧
          ∃ own, callee.span = .ok own ∧ own.start = c.span.start) := by
  have hplaced := placed_scan text
  have h := grounded_run (reads_readItems .declarations (scan text)) (scan_starts_apart text)
  refine ⟨_, ofText_eq_run text, ?_, ?_, ?_⟩
  · intro s hs hdef
    exact h.symbolAt?_template hplaced hcaret hs hdef
  · intro s hs hby hcalls
    obtain ⟨hname, hat⟩ := h.symbolAt?_plain hplaced hcaret hs hby hcalls
    refine ⟨?_, hat⟩
    rw [← hname]
    exact SymbolList.get?_of_mem h.plain hs
  · intro hnot s c hcalls
    obtain ⟨hs, hc, hat⟩ := h.symbolAt?_call hplaced hcaret hnot hcalls
    obtain ⟨callee, hmem, hvalue, hown⟩ := h.callee hplaced hs hc
    refine ⟨hat, callee, hmem, ?_, hown⟩
    rw [hvalue]
    exact SymbolList.get?_of_mem h.templates hs

/-- A template, and a rule that calls it. -/
def pairText : String := "%rule pair(X): X ;\n%%\nall: pair(one) two ;"

/-- The template of `pairText`. -/
def pairTemplate : Symbol where
  name := "pair"
  kind := .template
  definition := some
    ⟨⟨⟨0, 0⟩, ⟨0, 18⟩, by decide⟩, ⟨⟨0, 6⟩, ⟨0, 10⟩, by decide⟩⟩
  calls := [⟨⟨⟨2, 5⟩, ⟨2, 14⟩, by decide⟩, ["one"]⟩]
  parameters := some ["X"]
  isTemplate := true

/-- The plain symbol behind the call in `pairText`. -/
def behindCall : Symbol where
  name := "two"
  kind := .nonterminal
  references := [⟨⟨2, 15⟩, ⟨2, 18⟩, by decide⟩]

theorem pairText_found :
    (TouchesOnly (scan pairText) ⟨1, by decide⟩ ⟨0, 8⟩ ∧
      TouchesOnly (scan pairText) ⟨15, by decide⟩ ⟨2, 16⟩ ∧
      TouchesOnly (scan pairText) ⟨13, by decide⟩ ⟨2, 11⟩) ∧
    ∃ g, Grammar.ofText pairText = .ok g ∧
      g.table.symbolAt? ⟨0, 8⟩ = some pairTemplate ∧
      g.table.symbolAt? ⟨2, 16⟩ = some behindCall ∧
      g.table.symbolAt? ⟨2, 11⟩ = some pairTemplate := by
  have hname : TouchesOnly (scan pairText) ⟨1, by decide⟩ ⟨0, 8⟩ := ⟨by decide, by decide⟩
  have hplain : TouchesOnly (scan pairText) ⟨15, by decide⟩ ⟨2, 16⟩ := ⟨by decide, by decide⟩
  have hcall : TouchesOnly (scan pairText) ⟨13, by decide⟩ ⟨2, 11⟩ := ⟨by decide, by decide⟩
  obtain ⟨g, hg, htemplate, -⟩ := symbolAt?_of_touches pairText _ _ hname
  obtain ⟨g', hg', -, hreference, -⟩ := symbolAt?_of_touches pairText _ _ hplain
  obtain ⟨g'', hg'', -, -, hinside⟩ := symbolAt?_of_touches pairText _ _ hcall
  obtain rfl : g' = g := Except.ok.inj (hg'.symm.trans hg)
  obtain rfl : g'' = g' := Except.ok.inj (hg''.symm.trans hg)
  have hread : (Grammar.ofText pairText).toOption.all fun g =>
      g.table.templates = [pairTemplate] ∧ behindCall ∈ g.table.plain ∧
        g.table.callsAt ⟨2, 16⟩ = [] ∧
        g.table.callsAt ⟨2, 11⟩ =
          [(pairTemplate, ⟨⟨⟨2, 5⟩, ⟨2, 14⟩, by decide⟩, ["one"]⟩)] := by
    decide +kernel
  rw [hg] at hread
  obtain ⟨htemplates, hmem, houtside, hcalls⟩ := of_decide_eq_true hread
  refine ⟨⟨hname, hplain, hcall⟩, g'', hg, ?_, ?_, ?_⟩
  · refine htemplate pairTemplate (by rw [htemplates]; exact List.mem_cons_self) ?_
    exact ⟨_, rfl, by rfl⟩
  · exact (hreference behindCall hmem (Or.inr ⟨_, List.mem_cons_self, by rfl⟩) houtside).2
  · refine (hinside ?_ pairTemplate _ hcalls).1
    rw [htemplates]
    rintro s hs ⟨d, hd, hspan⟩
    rw [List.mem_singleton.mp hs] at hd
    rw [← Option.some.inj hd] at hspan
    exact absurd (congrArg (fun e => e.toOption.map Span.start) hspan) (by decide)

end GrammarLens
