import GrammarLens.Completion
import GrammarLens.Proofs.Redefinition

/-! # What is offered more than once

Offers come in groups, and the form of an offer tells its group: the directives and the functions are
told by what they insert, the reserved tokens and the operands of `%prec` by their details.  Within a
group the labels differ, since a name stands once on each side of a table.  So something is offered
twice just if a group is (`nodup_flatMap_offersOf`).

The directives are offered among the declarations, and after an unfinished directive anywhere.  Both
are the case where a declaration is being typed, and there each directive is offered twice;
everywhere else nothing is (`offers_nodup_iff`). -/

namespace GrammarLens

/-! ### Groups -/

/-- The groups that offers come in. -/
inductive Offer.Group where
  | directive
  | symbol
  | reserved
  | template
  | function
  | precedence
  | inline
deriving DecidableEq, Repr

/-- The group of an offer, as its form tells it. -/
def Offer.group (o : Offer) : Offer.Group :=
  match o.insertion, o.kind with
  | .literal _, _ => .inline
  | .snippet _, .keyword => .directive
  | .snippet _, .method => .template
  | .snippet _, _ => .function
  | .label, _ =>
    if o.detail = "Reserved token" then .reserved
    else if o.detail = "Precedence token" then .precedence
    else .symbol

/-- The offer of a plain symbol. -/
def Symbol.offer (s : Symbol) : Offer :=
  { label := s.name, kind := s.kind.offerKind, detail := s.kind.name ++ s.tagSuffix }

/-- The offer of a reserved token. -/
def reservedOffer (name : String) : Offer :=
  { label := name, kind := .constant, detail := "Reserved token" }

/-- The offers of a group. -/
def Table.offersOf (table : Table) : Offer.Group → List Offer
  | .directive => offeredDirectives
  | .symbol => (table.definedSymbols.filter (·.kind ≠ .template)).map Symbol.offer
  | .reserved => reservedTokens.map reservedOffer
  | .template => table.offeredTemplates
  | .function => offeredFunctions
  | .precedence => table.offeredPrecedences
  | .inline => [offeredInline]

/-- The groups that are offered in a section, after the beginning of a line. -/
def offeredGroups (place : Option Section) (line : List Char) : List Offer.Group :=
  (if place = some .declarations then [Offer.Group.directive] else []) ++
    (if place = some .rules then
      [Offer.Group.symbol, .reserved, .template, .function] ++
        (if endsInPrecedence line then [Offer.Group.precedence] else [])
    else []) ++
    (if endsInDirective line then [Offer.Group.directive] else []) ++
    (if endsAfterRule line then [Offer.Group.inline] else [])

/-- The beginning of the line with a position, up to the position. -/
def Source.lineBefore (source : Source) (p : Position) : List Char :=
  ((source.lines[p.line]?).getD []).take p.column

theorem Table.offers_eq_flatMap (table : Table) (source : Source) (p : Position) :
    table.offers source p =
      (offeredGroups (Section.at? (source.before p)) (source.lineBefore p)).flatMap
        table.offersOf := by
  have hsymbols : table.offeredSymbols = table.offersOf .symbol ++ table.offersOf .reserved := rfl
  have hsome (c : Prop) [Decidable c] (g : Offer.Group) :
      (if c then [g] else []).flatMap table.offersOf = if c then table.offersOf g else [] := by
    split
    · exact List.append_nil _
    · rfl
  rw [Table.offers, offeredGroups, List.flatMap_append, List.flatMap_append, List.flatMap_append,
    hsome, hsome, hsome, hsymbols]
  congr 3
  split
  · rw [List.flatMap_append, hsome]
    simp only [List.flatMap_cons, List.flatMap_nil, List.append_nil, List.append_assoc]
    rfl
  · rfl

/-- The groups differ unless the directives are offered for two reasons. -/
theorem nodup_offeredGroups_iff (place : Option Section) (line : List Char) :
    (offeredGroups place line).Nodup ↔
      ¬(place = some .declarations ∧ endsInDirective line = true) := by
  unfold offeredGroups
  generalize endsInPrecedence line = precedence
  generalize endsInDirective line = directive
  generalize endsAfterRule line = rule
  rcases place with _ | _ | _ | _ <;> revert precedence directive rule <;> decide

/-! ### The form of the offers of a group -/

/-- The details of a plain symbol start with the name of its kind, which is not capitalized. -/
theorem Symbol.offer_detail_ne (s : Symbol) {word : String}
    (hword : word.toList.head?.any Char.isUpper = true) : s.offer.detail ≠ word := by
  rintro rfl
  rw [offer, String.toList_append] at hword
  cases hkind : s.kind <;> rw [hkind] at hword <;> cases hword

theorem Symbol.offer_group (s : Symbol) : s.offer.group = .symbol := by
  have hgroup : s.offer.group =
      if s.offer.detail = "Reserved token" then .reserved
      else if s.offer.detail = "Precedence token" then .precedence
      else .symbol := rfl
  rw [hgroup, if_neg (s.offer_detail_ne (by decide)), if_neg (s.offer_detail_ne (by decide))]

theorem Table.group_of_mem_offersOf {table : Table} {g : Offer.Group} {o : Offer}
    (h : o ∈ table.offersOf g) : o.group = g := by
  cases g with
  | directive =>
      obtain ⟨d, -, rfl⟩ := List.mem_map.mp h
      rfl
  | symbol =>
      obtain ⟨s, -, rfl⟩ := List.mem_map.mp h
      exact s.offer_group
  | reserved =>
      obtain ⟨name, -, rfl⟩ := List.mem_map.mp h
      rfl
  | template =>
      obtain ⟨s, -, rfl⟩ := List.mem_map.mp h
      rfl
  | function =>
      obtain ⟨f, -, rfl⟩ := List.mem_map.mp h
      rfl
  | precedence =>
      obtain ⟨s, -, rfl⟩ := List.mem_map.mp h
      rfl
  | inline =>
      cases List.mem_singleton.mp h
      rfl

/-! ### Names in a table -/

namespace Table

theorem nodup_names (ops : List Operation) (side : Side) :
    ((side.symbols (empty.run ops)).map Symbol.name).Nodup := by
  rw [names_run]
  exact nodup_eraseDups _

/-- A name stands once among the defined symbols that are chosen from one side. -/
theorem nodup_names_filter (ops : List Operation) {p : Symbol → Bool}
    (h : (∀ s ∈ (empty.run ops).templates, p s = false) ∨
      ∀ s ∈ (empty.run ops).plain, p s = false) :
    (((empty.run ops).definedSymbols.filter p).map Symbol.name).Nodup := by
  have hnone {symbols : SymbolList} (hp : ∀ s ∈ symbols, p s = false) :
      (symbols.filter Symbol.isDefined).filter p = [] := by
    refine List.filter_eq_nil_iff.mpr fun s hs => ?_
    rw [hp s (List.mem_of_mem_filter hs)]
    decide
  have hsome (side : Side) : ((((side.symbols (empty.run ops)).filter Symbol.isDefined).filter
      p).map Symbol.name).Nodup :=
    (nodup_names ops side).sublist
      ((List.filter_sublist.trans List.filter_sublist).map Symbol.name)
  rw [definedSymbols, symbols, List.filter_append, List.filter_append]
  rcases h with h | h
  · rw [hnone h, List.nil_append]
    exact hsome .plain
  · rw [hnone h, List.append_nil]
    exact hsome .template

theorem plain_parameters (ops : List Operation) :
    ∀ s ∈ (empty.run ops).plain, s.parameters = none := by
  intro s hs
  obtain ⟨name, rfl⟩ := exists_after_of_mem .plain hs
  rw [plain_after]

end Table

/-- A template that a text defines is called by a name. -/
theorem isIdentifier_of_template {text : String} {s : Symbol}
    (hs : s ∈ (Table.empty.run ((itemsOf text).flatMap Item.operations)).templates)
    (hdefined : s.isDefined = true) : isIdentifier s.name.toList = true := by
  obtain ⟨name, rfl⟩ := Table.exists_after_of_mem .template hs
  rw [Table.Side.after_name]
  rw [Table.template_after, templateDefinition?_flatMap_operations] at hdefined
  cases hrules : (itemsOf text).filterMap (·.templateRule? name) with
  | nil =>
      rw [hrules] at hdefined
      cases hdefined
  | cons rule rules =>
      obtain ⟨item, hitem, hrule⟩ := List.mem_filterMap.mp (hrules ▸ List.mem_cons_self : rule ∈ _)
      obtain ⟨rfl, -, rfl⟩ := Item.eq_rule_of_templateRule? hrule
      have hmem : rule.name ∈ scan text := by
        refine (reads_readItems .declarations (scan text)).tokens_mem rule.name ?_
        refine List.mem_flatMap.mpr ⟨.rule rule, hitem, ?_⟩
        exact List.mem_cons_of_mem _ List.mem_cons_self
      have hname : (Item.rule rule).name.isName = true := isName_of_mem_readItems rfl hitem
      exact isIdentifier_of_mem_scan hmem hname

/-! ### Offers of one group -/

/-- The label of a template up to its first parenthesis is its name. -/
theorem Symbol.baseName_displayName {s : Symbol} (hname : isIdentifier s.name.toList = true)
    (hparameters : (s.parameters.getD []).isEmpty = false) :
    Policy.baseName s.displayName = s.name.toList := by
  have hparen : ∀ c ∈ s.name.toList, (c != '(') = true := by
    intro c hc
    refine bne_iff_ne.mpr ?_
    rintro rfl
    exact absurd (isNameChar_of_isIdentifier hname _ hc) (by decide)
  have hlist : ∃ rest, s.displayName.toList = s.name.toList ++ '(' :: rest := by
    rw [displayName, String.toList_append, parameterList]
    split
    · rename_i hnone
      rw [hnone] at hparameters
      cases hparameters
    · rename_i hnone
      rw [hnone] at hparameters
      cases hparameters
    · rw [String.toList_append, String.toList_append]
      exact ⟨_, rfl⟩
  obtain ⟨rest, hrest⟩ := hlist
  rw [Policy.baseName, hrest, List.takeWhile_append_of_pos hparen,
    List.takeWhile_cons_of_neg (by decide), List.append_nil]

theorem nodup_offeredDirectives : offeredDirectives.Nodup :=
  List.Nodup.of_map Offer.label (by decide +kernel)

theorem nodup_offeredFunctions : offeredFunctions.Nodup :=
  List.Nodup.of_map Offer.label (by decide +kernel)

theorem nodup_offeredTemplates (text : String) :
    (Table.empty.run ((itemsOf text).flatMap Item.operations)).offeredTemplates.Nodup := by
  have hplain := Table.plain_parameters ((itemsOf text).flatMap Item.operations)
  have hnames := Table.nodup_names_filter ((itemsOf text).flatMap Item.operations)
    (p := fun s => s.kind = .template && !(s.parameters.getD []).isEmpty)
    (Or.inr fun s hs => by simp [hplain s hs])
  -- The label of a template tells its name.
  refine List.Nodup.of_map (fun o => Policy.baseName o.label) ?_
  have htexts := hnames.map fun _ _ => String.toList_injective
  rw [List.map_map] at htexts
  rw [Table.offeredTemplates, List.map_map]
  refine List.map_congr_left (fun s hs => ?_) ▸ htexts
  obtain ⟨hs, hchosen⟩ := List.mem_filter.mp hs
  obtain ⟨hs, hdefined⟩ := List.mem_filter.mp hs
  have hparameters : (s.parameters.getD []).isEmpty = false := by
    simpa using (Bool.and_eq_true_iff.mp hchosen).2
  rcases List.mem_append.mp hs with hs | hs
  · exact (Symbol.baseName_displayName (isIdentifier_of_template hs hdefined) hparameters).symm
  · rw [hplain s hs] at hparameters
    cases hparameters

theorem nodup_offersOf (text : String) (g : Offer.Group) :
    ((Table.empty.run ((itemsOf text).flatMap Item.operations)).offersOf g).Nodup := by
  have htemplates := Table.templates_run ((itemsOf text).flatMap Item.operations)
  cases g with
  | directive => exact nodup_offeredDirectives
  | symbol =>
      refine List.Nodup.of_map Offer.label ?_
      rw [Table.offersOf, List.map_map]
      refine Table.nodup_names_filter _ (Or.inl fun s hs => ?_)
      simp [(htemplates s hs).kind]
  | reserved =>
      refine List.Nodup.of_map Offer.label ?_
      rw [Table.offersOf, List.map_map]
      decide
  | template => exact nodup_offeredTemplates text
  | function => exact nodup_offeredFunctions
  | precedence =>
      refine List.Nodup.of_map Offer.label ?_
      rw [Table.offersOf, Table.offeredPrecedences, List.map_map]
      refine Table.nodup_names_filter _ (Or.inl fun s hs => ?_)
      simp [(htemplates s hs).kind]
  | inline => exact List.nodup_singleton _

/-- Groups that differ have no offer in common. -/
theorem nodup_flatMap_offersOf {table : Table} (h : ∀ g, (table.offersOf g).Nodup)
    {groups : List Offer.Group} (hgroups : groups.Nodup) :
    (groups.flatMap table.offersOf).Nodup := by
  refine List.nodup_flatMap.mpr ⟨fun g _ => h g, hgroups.imp fun hne o ho ho' => hne ?_⟩
  rw [← Table.group_of_mem_offersOf ho, Table.group_of_mem_offersOf ho']

/-! ### Unfinished directives -/

/-- The characters of an unfinished directive behind the percent sign. -/
def isDirectiveLetter (c : Char) : Bool := c.isLower || c == '-'

theorem isNameChar_of_isDirectiveLetter {c : Char} (h : isDirectiveLetter c = true) :
    isNameChar c = true := by
  rcases Bool.or_eq_true_iff.mp h with hsmall | hdash
  · have halpha : c.isAlpha = true := Bool.or_eq_true_iff.mpr (Or.inr hsmall)
    simp only [isNameChar, Char.isAlphanum, halpha, Bool.true_or]
  · simp only [isNameChar, hdash, Bool.or_true]

theorem endsInDirective_eq (line : List Char) :
    endsInDirective line = ((line.reverse.dropWhile isDirectiveLetter).head? == some '%') := rfl

/-- A line ends in an unfinished directive if there is a percent sign in it with nothing but small
letters and dashes behind it. -/
theorem endsInDirective_iff (line : List Char) :
    endsInDirective line = true ↔
      ∃ word : List Char, (∀ c ∈ word, isDirectiveLetter c = true) ∧ '%' :: word <:+ line := by
  rw [endsInDirective_eq, beq_iff_eq]
  constructor
  · intro h
    obtain ⟨before, hbefore⟩ := List.head?_eq_some_iff.mp h
    refine ⟨(line.reverse.takeWhile isDirectiveLetter).reverse, ?_, before.reverse, ?_⟩
    · intro c hc
      exact List.mem_takeWhile_imp (List.mem_reverse.mp hc)
    · calc before.reverse ++ '%' :: (line.reverse.takeWhile isDirectiveLetter).reverse
          = (line.reverse.takeWhile isDirectiveLetter ++ '%' :: before).reverse := by simp
        _ = line := by rw [← hbefore, List.takeWhile_append_dropWhile, List.reverse_reverse]
  · rintro ⟨word, hword, before, rfl⟩
    have hletters : ∀ c ∈ word.reverse, isDirectiveLetter c = true :=
      fun c hc => hword c (List.mem_reverse.mp hc)
    rw [List.reverse_append, List.reverse_cons, List.append_assoc,
      List.dropWhile_append_of_pos hletters]
    rfl

theorem endsAfterRule_of_endsInDirective {line : List Char} (h : endsInDirective line = true) :
    endsAfterRule line = false := by
  obtain ⟨word, hword, before, rfl⟩ := (endsInDirective_iff line).mp h
  have hlast : ∃ c cs, (before ++ '%' :: word).reverse = c :: cs ∧ isBlank c = false := by
    cases hrev : word.reverse with
    | nil => exact ⟨'%', before.reverse, by simp [hrev], by decide⟩
    | cons c cs =>
        refine ⟨c, cs ++ '%' :: before.reverse, by simp [hrev], ?_⟩
        have hc := hword c (List.mem_reverse.mp (hrev ▸ List.mem_cons_self))
        exact isBlank_of_isNameChar (isNameChar_of_isDirectiveLetter hc)
  obtain ⟨c, cs, hline, hblank⟩ := hlast
  rw [endsAfterRule, hline, endsWithBlanksAfter, List.head?_cons, Option.any_some, hblank,
    Bool.false_and]

/-! ### Offers at a position -/

/-- The position is among the declarations, right after an unfinished directive. -/
def Source.BeginsDeclaration (source : Source) (p : Position) : Prop :=
  Section.at? (source.before p) = some .declarations ∧
    ∃ word : List Char, (∀ c ∈ word, isDirectiveLetter c = true) ∧
      '%' :: word <:+ source.lineBefore p

/-- Nothing is offered twice at a position of a text, unless the position is among the declarations
and right after an unfinished directive; there all directives are offered, and all of them again. -/
theorem offers_nodup_iff (text : String) (p : Position) :
    ∃ g, Grammar.ofText text = .ok g ∧
      ((g.table.offers (.ofText text) p).Nodup ↔ ¬(Source.ofText text).BeginsDeclaration p) ∧
      ((Source.ofText text).BeginsDeclaration p →
        g.table.offers (.ofText text) p = offeredDirectives ++ offeredDirectives) := by
  refine ⟨_, ofText_eq_run text, ?_⟩
  rw [Source.BeginsDeclaration, ← endsInDirective_iff, Table.offers_eq_flatMap]
  have htwice (h : Section.at? ((Source.ofText text).before p) = some .declarations ∧
      endsInDirective ((Source.ofText text).lineBefore p) = true) :
      offeredGroups (Section.at? ((Source.ofText text).before p))
        ((Source.ofText text).lineBefore p) = [.directive, .directive] := by
    simp [offeredGroups, h.1, h.2, endsAfterRule_of_endsInDirective h.2]
  refine ⟨⟨fun hnodup hbegins => ?_, fun hfree => ?_⟩, fun hbegins => ?_⟩
  · rw [htwice hbegins] at hnodup
    obtain ⟨o, ho⟩ : ∃ o, o ∈ offeredDirectives := ⟨_, List.mem_cons_self⟩
    exact (List.nodup_append.mp hnodup).2.2 o ho o (List.mem_append_left [] ho) rfl
  · exact nodup_flatMap_offersOf (nodup_offersOf text) ((nodup_offeredGroups_iff _ _).mpr hfree)
  · rw [htwice hbegins]
    rfl

/-- A percent sign alone brings every directive twice. -/
theorem directives_offered_twice :
    ¬∀ (text : String) (p : Position) (g : Grammar), Grammar.ofText text = .ok g →
      (g.table.offers (.ofText text) p).Nodup := by
  intro h
  have hgrammar : Grammar.ofText "%" = .ok ⟨.empty, .declarations⟩ := by decide +kernel
  have hnodup := h "%" ⟨0, 1⟩ _ hgrammar
  revert hnodup
  decide +kernel

end GrammarLens
