import GrammarLens.Proofs.Likeness

/-! # What a grammar says apart from places

The profile of a table is all that it says apart from places: its symbols in their order, and for
each of them its kind, its parameters, its type tag, whether it is defined, how often it is referred
to and with which arguments it is called.  Two token lists with the same words, grouped into lines
in the same way, spell grammars with the same profile, wherever the tokens stand
(`profile_of_sameWords`): coordinates find their way into spans and nowhere else. -/

namespace GrammarLens

/-- What is known of a symbol apart from places. -/
structure Symbol.Profile where
  name : String
  kind : Symbol.Kind
  isDefined : Bool
  references : Nat
  calls : List (List String)
  parameters : Option (List String)
  typeTag : Option String
  isTemplate : Bool
deriving DecidableEq, Repr

/-- The symbol without its places. -/
def Symbol.profile (s : Symbol) : Symbol.Profile where
  name := s.name
  kind := s.kind
  isDefined := s.isDefined
  references := s.references.length
  calls := s.calls.map Call.arguments
  parameters := s.parameters
  typeTag := s.typeTag
  isTemplate := s.isTemplate

/-- What is known of a table apart from places. -/
@[ext]
structure Table.Profile where
  templates : List Symbol.Profile
  plain : List Symbol.Profile
  start : Option String
deriving DecidableEq, Repr

/-- The table without its places. -/
def Table.profile (table : Table) : Table.Profile where
  templates := table.templates.map Symbol.profile
  plain := table.plain.map Symbol.profile
  start := table.start

/-! ### Operations that differ in places -/

/-- The operations differ in their places only. -/
inductive Table.Operation.Like : Table.Operation → Table.Operation → Prop
  | define (name : String) (kind : Symbol.Kind) (d e : Definition) :
      Table.Operation.Like (.define name kind d) (.define name kind e)
  | defineTemplate (name : String) (parameters : List String) (d e : Definition) :
      Table.Operation.Like (.defineTemplate name parameters d) (.defineTemplate name parameters e)
  | refer (name : String) (s s' : Span) :
      Table.Operation.Like (.refer name s) (.refer name s')
  | call (name : String) (s s' : Span) (arguments : List String) :
      Table.Operation.Like (.call name ⟨s, arguments⟩) (.call name ⟨s', arguments⟩)
  | tagPlain (name tag : String) : Table.Operation.Like (.tagPlain name tag) (.tagPlain name tag)
  | tagTemplate (name tag : String) :
      Table.Operation.Like (.tagTemplate name tag) (.tagTemplate name tag)
  | setStart (name : String) : Table.Operation.Like (.setStart name) (.setStart name)

namespace Symbol

variable {s s' : Symbol}

theorem name_eq_of_profile (h : s'.profile = s.profile) : s'.name = s.name :=
  congrArg Profile.name h

/-- Whether a definition is taken does not depend on places. -/
theorem profile_change {op op' : Table.Operation} (hop : op.Like op')
    (h : s'.profile = s.profile) : (op'.change s').profile = (op.change s).profile := by
  have hdefined : s'.isDefined = s.isDefined := congrArg Profile.isDefined h
  simp only [profile, Profile.mk.injEq] at h
  obtain ⟨hname, hkind, -, hrefs, hcalls, hparameters, htag, htemplate⟩ := h
  cases hop with
  | define name kind d e =>
      simp only [Table.Operation.change, hdefined]
      split <;> simp_all [profile, isDefined]
  | defineTemplate name parameters d e =>
      simp only [Table.Operation.change, hdefined]
      split <;> simp_all [profile, isDefined]
  | refer | call | tagPlain | tagTemplate | setStart =>
      simp_all [Table.Operation.change, profile, isDefined]

end Symbol

theorem SymbolList.profile_alter {symbols symbols' : SymbolList} {blank : Symbol}
    {change change' : Symbol → Symbol}
    (hc : ∀ {s s' : Symbol}, s'.profile = s.profile → (change' s').profile = (change s).profile)
    (h : symbols'.map Symbol.profile = symbols.map Symbol.profile) :
    (symbols'.alter blank change').map Symbol.profile =
      (symbols.alter blank change).map Symbol.profile := by
  induction symbols generalizing symbols' with
  | nil =>
      obtain rfl := List.map_eq_nil_iff.mp h
      simp only [SymbolList.alter, List.map_cons, List.map_nil, hc rfl]
  | cons s symbols ih =>
      obtain ⟨s', rest, rfl, hs, hrest⟩ := List.map_eq_cons_iff.mp h
      unfold SymbolList.alter
      rw [Symbol.name_eq_of_profile hs]
      split
      · rw [List.map_cons, List.map_cons, hc hs, hrest]
      · rw [List.map_cons, List.map_cons, hs, ih hrest]

namespace Table

variable {table table' : Table}

theorem profile_apply {op op' : Operation} (hop : op.Like op')
    (h : table'.profile = table.profile) :
    (table'.apply op').profile = (table.apply op).profile := by
  have htemplates : table'.templates.map Symbol.profile = table.templates.map Symbol.profile :=
    congrArg Profile.templates h
  have hplain : table'.plain.map Symbol.profile = table.plain.map Symbol.profile :=
    congrArg Profile.plain h
  have hstart : table'.start = table.start := congrArg Profile.start h
  have hchange : ∀ {s s' : Symbol}, s'.profile = s.profile →
      (op'.change s').profile = (op.change s).profile := Symbol.profile_change hop
  cases hop with
  | define | refer | tagPlain =>
      exact Profile.ext htemplates (SymbolList.profile_alter hchange hplain) hstart
  | defineTemplate | call | tagTemplate =>
      exact Profile.ext (SymbolList.profile_alter hchange htemplates) hplain hstart
  | setStart name => exact Profile.ext htemplates hplain rfl

theorem profile_run {ops ops' : List Operation} (hops : List.Forall₂ Operation.Like ops ops')
    (h : table'.profile = table.profile) : (table'.run ops').profile = (table.run ops).profile := by
  induction hops generalizing table table' with
  | nil => exact h
  | cons hop _ ih => exact ih (profile_apply hop h)

end Table

/-! ### Items that differ in places -/

section Values

variable {S : Token → Token → Prop} (hv : ∀ {t u}, S t u → u.value = t.value)

include hv

theorem Use.Like.operations {use use' : Use} (h : Use.Like S use use')
    (placeholders : List String) :
    List.Forall₂ Table.Operation.Like (use.operations placeholders)
      (use'.operations placeholders) := by
  cases h with
  | name hs =>
      simp only [Use.operations, hv hs]
      split
      · exact .nil
      · exact .cons (.refer _ _ _) .nil
  | precedence hs =>
      simp only [Use.operations, hv hs]
      exact .cons (.refer _ _ _) .nil
  | call arguments hs _ =>
      simp only [Use.operations, hv hs]
      exact .cons (.call _ _ _ _) .nil

theorem Rule.Like.defining {r q : Rule} (h : Rule.Like S r q) : r.defining.Like q.defining := by
  unfold Rule.defining
  rw [h.parameters, hv h.name]
  split
  · exact .define _ _ _ _
  · exact .defineTemplate _ _ _ _

theorem Rule.Like.tagging {r q : Rule} (h : Rule.Like S r q) :
    List.Forall₂ Table.Operation.Like r.tagging q.tagging := by
  unfold Rule.tagging
  rw [h.parameters, h.typeTag, hv h.name]
  split
  · exact .nil
  · exact .cons (.tagPlain _ _) .nil
  · exact .cons (.tagTemplate _ _) .nil

theorem Item.Like.operations {i j : Item} (h : Item.Like S i j) :
    List.Forall₂ Table.Operation.Like i.operations j.operations := by
  cases h with
  | symbol kind tag hs =>
      simp only [Item.operations, hv hs]
      refine .cons (.define _ _ _ _) ?_
      cases tag with
      | none => exact .nil
      | some tag => exact .cons (.tagPlain _ _) .nil
  | start hs =>
      simp only [Item.operations, hv hs]
      exact .cons (.define _ _ _ _) (.cons (.setStart _) .nil)
  | rule hr =>
      simp only [Item.operations, hr.parameters]
      refine .cons (hr.defining hv) (List.rel_append (hr.tagging hv) ?_)
      exact List.rel_flatMap hr.uses fun _ _ hu => hu.operations hv _

end Values

/-! ### Token lists with the same words -/

/-- The token lists have the same words at the same indices, grouped into lines in the same way.
Nothing else is said about the places of the tokens. -/
structure SameWords (ts us : List Token) : Prop where
  length_eq : us.length = ts.length
  word_eq : ∀ p ∈ ts.zip us, p.2.kind = p.1.kind ∧ p.2.value = p.1.value
  line_iff : ∀ p ∈ ts.zip us, ∀ q ∈ ts.zip us, q.2.line = p.2.line ↔ q.1.line = p.1.line

instance (ts us : List Token) : Decidable (SameWords ts us) :=
  decidable_of_iff (us.length = ts.length ∧
      (∀ p ∈ ts.zip us, p.2.kind = p.1.kind ∧ p.2.value = p.1.value) ∧
      ∀ p ∈ ts.zip us, ∀ q ∈ ts.zip us, q.2.line = p.2.line ↔ q.1.line = p.1.line)
    ⟨fun h => ⟨h.1, h.2.1, h.2.2⟩, fun h => ⟨h.1, h.2, h.3⟩⟩

/-- Tokens at the same index are a likeness; of the kept ones, only the values matter. -/
theorem SameWords.likeness {ts us : List Token} (h : SameWords ts us) :
    Likeness (fun t u => (t, u) ∈ ts.zip us) (fun t u => u.value = t.value) where
  kind r := (h.word_eq _ r).1
  value r := (h.word_eq _ r).2
  line r r' := h.line_iff _ r _ r'
  keep r _ := (h.word_eq _ r).2

/-- Two lists of placed tokens with the same words, grouped into lines in the same way, are both
read without failure; they end in the same section, and their tables say the same apart from
places. -/
theorem profile_of_sameWords {ts us : List Token} (hts : ∀ t ∈ ts, t.Placed)
    (hus : ∀ u ∈ us, u.Placed) (h : SameWords ts us) :
    ∃ g g', Grammar.ofTokens ts = .ok g ∧ Grammar.ofTokens us = .ok g' ∧
      g'.lastSection = g.lastSection ∧ g'.table.profile = g.table.profile := by
  have hzip : List.Forall₂ (fun t u => (t, u) ∈ ts.zip us) ts us :=
    List.forall₂_iff_zip.mpr ⟨h.length_eq.symm, fun hp => hp⟩
  obtain ⟨hitems, hlast⟩ := readItems_like h.likeness .declarations hzip
  refine ⟨_, _, ofTokens_eq_run hts, ofTokens_eq_run hus, hlast, ?_⟩
  have hops : List.Forall₂ Table.Operation.Like
      ((readItems .declarations ts).1.flatMap Item.operations)
      ((readItems .declarations us).1.flatMap Item.operations) :=
    List.rel_flatMap hitems fun _ _ hi => hi.operations fun hv => hv
  exact Table.profile_run hops rfl

/-- The token without a width, at the start of a line that is counted from below. -/
def Token.upturned (t : Token) : Token := ⟨t.kind, t.value, 9 - t.line, 0, 0⟩

/-- Tokens whose first directive speaks about the rest of its line and no more. -/
def groupedTokens : List Token :=
  [⟨.directive, "%define", 0, 0, 7⟩, ⟨.directive, "%token", 0, 8, 6⟩,
    ⟨.identifier, "lost", 0, 15, 4⟩, ⟨.directive, "%token", 1, 0, 6⟩,
    ⟨.identifier, "kept", 1, 7, 4⟩, ⟨.separator, "%%", 2, 0, 2⟩,
    ⟨.identifier, "sum", 3, 0, 3⟩, ⟨.special, ":", 3, 4, 1⟩, ⟨.identifier, "pair", 3, 6, 4⟩,
    ⟨.special, "(", 3, 10, 1⟩, ⟨.identifier, "kept", 3, 11, 4⟩, ⟨.special, ")", 4, 0, 1⟩]

theorem groupedTokens_upturned :
    SameWords groupedTokens (groupedTokens.map Token.upturned) ∧
      ∃ g g', Grammar.ofTokens groupedTokens = .ok g ∧
        Grammar.ofTokens (groupedTokens.map Token.upturned) = .ok g' ∧
        g.table.symbols.map Symbol.name = ["pair", "kept", "sum"] ∧
        g'.lastSection = g.lastSection ∧ g'.table.profile = g.table.profile := by
  have hsame : SameWords groupedTokens (groupedTokens.map Token.upturned) := by decide +kernel
  have hread : (Grammar.ofTokens groupedTokens).toOption.map
      (fun g => g.table.symbols.map Symbol.name) = some ["pair", "kept", "sum"] := by
    decide +kernel
  obtain ⟨g, g', hg, hg', hlast, hprofile⟩ :=
    profile_of_sameWords (by decide +kernel) (by decide +kernel) hsame
  rw [hg] at hread
  exact ⟨hsame, g, g', hg, hg', Option.some.inj hread, hlast, hprofile⟩

end GrammarLens
