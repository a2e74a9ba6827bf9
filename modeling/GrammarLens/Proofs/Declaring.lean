import GrammarLens.Proofs.History
import GrammarLens.Proofs.Lowering
import GrammarLens.Proofs.Recovery
import GrammarLens.Proofs.Silencing

/-! # Declaring a token

A line `%token n` above a grammar that starts with its rules adds one operation before all others:
the definition of `n` (`operations_declared`).  From then on the tables of both texts run side by
side.  The one with the declaration has `n` in front, defined and a token, and otherwise the symbols
of the other one, a line lower and in their order (`Table.Beneath`).  No operation brings the two
apart (`Table.Beneath.apply`), so they end as they go (`Table.Beneath.run`).

Both lint rules look at symbols one by one, keep silent about a defined token and about templates,
and name in a message the symbol that it is about (`Lint.Rule.Local`).  Therefore the declaration
takes away exactly the problems about `n` (`declaration_silences`). -/

namespace GrammarLens

/-! ### Tables side by side -/

namespace SymbolList

theorem map_lower_alter (k : Nat) (op : Table.Operation) {blank : Symbol}
    (hblank : blank.lower k = blank) (symbols : SymbolList) :
    (symbols.alter blank op.change).map (Symbol.lower k) =
      SymbolList.alter blank (op.lower k).change (symbols.map (Symbol.lower k)) := by
  induction symbols with
  | nil =>
      have hnew := op.change_lower k blank
      rw [hblank] at hnew
      simp only [alter, List.map_cons, List.map_nil, hnew]
  | cons s symbols ih =>
      have hname : (s.lower k).name = s.name := rfl
      simp only [alter, List.map_cons, hname]
      split
      · rw [List.map_cons, op.change_lower]
      · rw [List.map_cons, ih]

/-- A change of the symbol with a name is not seen where that symbol is left out. -/
theorem filter_alter_self (op : Table.Operation) (blank : Symbol) (symbols : SymbolList) :
    (symbols.alter blank op.change).filter (·.name != blank.name) =
      symbols.filter (·.name != blank.name) := by
  have hout : ∀ s : Symbol, s.name = blank.name → ¬((s.name != blank.name) = true) := by
    intro s hs
    simp [hs]
  induction symbols with
  | nil => exact List.filter_cons_of_neg (hout _ (op.change_name blank))
  | cons s symbols ih =>
      unfold alter
      split
      · rename_i hs
        rw [List.filter_cons, List.filter_cons, if_neg (hout s hs),
          if_neg (hout _ ((op.change_name s).trans hs))]
      · rw [List.filter_cons, List.filter_cons, ih]

/-- Other changes are made alike whether or not a symbol is left out. -/
theorem filter_alter_of_ne (op : Table.Operation) {blank : Symbol} {name : String}
    (h : blank.name ≠ name) (symbols : SymbolList) :
    (symbols.alter blank op.change).filter (·.name != name) =
      SymbolList.alter blank op.change (symbols.filter (·.name != name)) := by
  have hin : ∀ s : Symbol, s.name = blank.name → (s.name != name) = true := by
    intro s hs
    rw [hs]
    exact bne_iff_ne.mpr h
  induction symbols with
  | nil => exact List.filter_cons_of_pos (hin _ (op.change_name blank))
  | cons s symbols ih =>
      by_cases hs : s.name = blank.name
      · rw [alter, if_pos hs, List.filter_cons, List.filter_cons, if_pos (hin s hs),
          if_pos (hin _ ((op.change_name s).trans hs)), alter, if_pos hs]
      · rw [alter, if_neg hs, List.filter_cons, List.filter_cons, ih]
        split
        · rw [alter, if_neg hs]
        · rfl

end SymbolList

theorem Table.Operation.change_of_isDefined (op : Table.Operation) {s : Symbol}
    (h : s.isDefined = true) : (op.change s).isDefined = true ∧ (op.change s).kind = s.kind := by
  cases op with
  | define | defineTemplate =>
      rw [Table.Operation.change, if_pos h]
      exact ⟨h, rfl⟩
  | refer | call | tagPlain | tagTemplate | setStart => exact ⟨h, rfl⟩

/-- The second list has a defined token with a name in front.  Otherwise it has the symbols of the
first one a line lower, without the one of that name. -/
def SymbolList.Headed (name : String) (symbols symbols' : SymbolList) : Prop :=
  ∃ s : Symbol, s.name = name ∧ s.isDefined = true ∧ s.kind = .token ∧
    symbols' = s :: (symbols.filter (·.name != name)).map (Symbol.lower 1)

/-- Whatever is done to a symbol is done to the same symbol a line lower, or to the token. -/
theorem SymbolList.Headed.alter {name : String} {symbols symbols' : SymbolList}
    (h : Headed name symbols symbols') (op : Table.Operation) (m : String) :
    Headed name (symbols.alter (Table.blankPlain m) op.change)
      (symbols'.alter (Table.blankPlain m) (op.lower 1).change) := by
  obtain ⟨s, hname, hdefined, hkind, rfl⟩ := h
  rw [SymbolList.alter]
  by_cases hm : s.name = (Table.blankPlain m).name
  · obtain ⟨hdefined', hkind'⟩ := (op.lower 1).change_of_isDefined hdefined
    have hself := SymbolList.filter_alter_self op (Table.blankPlain m) symbols
    rw [← hm, hname] at hself
    refine ⟨(op.lower 1).change s, ((op.lower 1).change_name s).trans hname, hdefined',
      hkind'.trans hkind, ?_⟩
    rw [if_pos hm, hself]
  · refine ⟨s, hname, hdefined, hkind, ?_⟩
    have hne : (Table.blankPlain m).name ≠ name := fun h => hm (hname.trans h.symm)
    rw [if_neg hm, SymbolList.filter_alter_of_ne op hne, SymbolList.map_lower_alter 1 op rfl]

/-- The symbol is a template that nothing refers to but by calls. -/
structure Symbol.CalledOnly (s : Symbol) : Prop where
  references : s.references = []
  kind : s.kind = .template

namespace Table

/-- The second table has the symbols of the first one a line lower, but for a plain one with a name:
in its place there is a token in front of the plain symbols. -/
structure Beneath (name : String) (table table' : Table) : Prop where
  templates : table'.templates = table.templates.map (Symbol.lower 1)
  plain : SymbolList.Headed name table.plain table'.plain

namespace Beneath

variable {name : String} {table table' : Table}

theorem apply (h : Beneath name table table') (op : Operation) :
    Beneath name (table.apply op) (table'.apply (op.lower 1)) := by
  have hplain := h.plain.alter op
  have htemplates : ∀ m, table'.templates.alter (blankTemplate m) (op.lower 1).change =
      (table.templates.alter (blankTemplate m) op.change).map (Symbol.lower 1) := by
    intro m
    rw [h.templates, SymbolList.map_lower_alter 1 op rfl]
  cases op with
  | define m | refer m | tagPlain m => exact ⟨h.templates, hplain m⟩
  | defineTemplate m | call m | tagTemplate m => exact ⟨htemplates m, h.plain⟩
  | setStart => exact ⟨h.templates, h.plain⟩

theorem run (h : Beneath name table table') (ops : List Operation) :
    Beneath name (table.run ops) (table'.run (ops.map (·.lower 1))) := by
  induction ops generalizing table table' with
  | nil => exact h
  | cons op ops ih => exact ih (h.apply op)

theorem parameterNames (h : Beneath name table table') :
    table'.parameterNames = table.parameterNames := by
  rw [Table.parameterNames, Table.parameterNames, h.templates, List.flatMap_map]
  rfl

end Beneath

/-- The declaration of a token puts a table beneath it. -/
theorem beneath_define (name : String) (d : Definition) :
    Beneath name empty (empty.apply (.define name .token d)) :=
  ⟨rfl, _, rfl, rfl, rfl, rfl⟩

theorem templates_run (ops : List Operation) :
    ∀ s ∈ (empty.run ops).templates, s.CalledOnly := by
  intro s hs
  obtain ⟨name, rfl⟩ := exists_after_of_mem .template hs
  rw [template_after]
  exact ⟨rfl, rfl⟩

end Table

/-! ### Rules that look at symbols one by one -/

/-- The problem some lines below. -/
def Problem.lower (k : Nat) (p : Problem) : Problem := { p with span := p.span.lower k }

/-- Whether a problem is about the symbol with a name. -/
def Problem.concerns (name : String) (p : Problem) : Bool :=
  match p.kind with
  | .undefinedSymbol => p.message == s!"Symbol '{name}' is not defined"
  | .unusedRule => p.message == s!"Rule '{name}' is defined but never used"

namespace Lint

/-- The finding some lines below. -/
def Finding.lower (k : Nat) (finding : Finding) : Finding :=
  ⟨finding.span.lower k, finding.message⟩

/-- What a rule finds is what `find` finds in each symbol, wherever the symbol stands.  It is about
that symbol, and there is nothing in a symbol other than a rule that is defined or never referred
to. -/
structure Rule.Local (rule : Rule) (policy : Policy) (known : List String)
    (find : Symbol → List Finding) : Prop where
  check : ∀ table : Table, table.parameterNames = known →
    rule.check table policy = .ok (table.symbols.flatMap find)
  lower : ∀ (k : Nat) (s : Symbol), find (s.lower k) = (find s).map (Finding.lower k)
  concerns : ∀ s, ∀ finding ∈ find s, ∀ name,
    (rule.problem finding).concerns name = (s.name == name)
  silent : ∀ s : Symbol, s.isDefined = true ∨ s.references = [] → s.kind ≠ .rule → find s = []

/-- Messages that differ in a name only are equal if the names are. -/
theorem message_beq (before after a b : String) :
    ((before ++ a ++ after) == (before ++ b ++ after)) = (a == b) := by
  rw [Bool.eq_iff_iff, beq_iff_eq, beq_iff_eq]
  constructor
  · intro h
    have hlist := congrArg String.toList h
    simp only [String.toList_append, List.append_assoc] at hlist
    exact String.toList_injective (List.append_cancel_right (List.append_cancel_left hlist))
  · rintro rfl
    rfl

theorem Finding.mem_undefinedUses {s : Symbol} {finding : Finding} (h : finding ∈ undefinedUses s) :
    finding.message = s!"Symbol '{s.name}' is not defined" := by
  obtain ⟨span, -, rfl⟩ := List.mem_map.mp h
  rfl

theorem undefinedSymbol_local {policy : Policy} {known : List String} {excused : String → Bool}
    (h : ∀ name, policy.excuses known name = .ok (excused name)) :
    undefinedSymbol.Local policy known (undefinedFindings excused) where
  check table hknown := by
    show Except.mapError _ _ = _
    rw [hknown, undefinedAmong_of_excuses h]
    rfl
  lower k s := by
    have hempty : (s.lower k).references.isEmpty = s.references.isEmpty := List.isEmpty_map
    have hname : (s.lower k).name = s.name := rfl
    unfold undefinedFindings
    rw [hempty, hname, s.isDefined_lower]
    split
    · rfl
    · simp only [undefinedUses, Symbol.lower, List.map_map]
      rfl
  concerns s finding hfinding name := by
    unfold undefinedFindings at hfinding
    split at hfinding
    · cases hfinding
    · simp only [Rule.problem, undefinedSymbol, Problem.concerns,
        Finding.mem_undefinedUses hfinding]
      exact message_beq "Symbol '" "' is not defined" s.name name
  silent s hs _ := by
    have hquiet : (s.references.isEmpty || s.isDefined || excused s.name) = true := by
      rcases hs with hs | hs
      · simp [hs]
      · simp [hs]
    exact if_pos hquiet

theorem unused?_lower (k : Nat) (s : Symbol) :
    unused? (s.lower k) = (unused? s).map (Finding.lower k) := by
  have hsame : isUnused (s.lower k) = isUnused s := by
    simp only [isUnused, s.isDefined_lower]
    simp only [Symbol.lower, List.isEmpty_map]
  unfold unused?
  rw [hsame]
  split
  · simp only [Symbol.lower, Option.map_map]
    rfl
  · rfl

theorem unusedRule_local (policy : Policy) (known : List String) :
    unusedRule.Local policy known (fun s => (unused? s).toList) where
  check table _ := congrArg Except.ok (List.filterMap_eq_flatMap_toList unused? table.symbols)
  lower k s := by
    rw [unused?_lower]
    cases unused? s <;> rfl
  concerns s finding hfinding name := by
    rw [Option.mem_toList] at hfinding
    unfold unused? at hfinding
    split at hfinding
    · obtain ⟨d, -, rfl⟩ := Option.map_eq_some_iff.mp hfinding
      exact message_beq "Rule '" "' is defined but never used" s.name name
    · cases hfinding
  silent s _ hkind := by
    have hused : ¬isUnused s = true := by
      simp only [isUnused, Bool.and_eq_true, beq_iff_eq]
      exact fun h => hkind h.1.1.1.1
    rw [unused?, if_neg hused]
    rfl

theorem Rule.Local.restyled {rule rule' : Rule} {policy : Policy} {known : List String}
    {find : Symbol → List Finding} (h : rule.Local policy known find)
    (hstyle : rule.Restyled rule') : rule'.Local policy known find where
  check table hknown := by rw [hstyle.check, h.check table hknown]
  lower := h.lower
  concerns s finding hfinding name := by
    rw [← h.concerns s finding hfinding name]
    simp only [Problem.concerns, Rule.problem, hstyle.kind]
  silent := h.silent

/-- Every rule is local under a usable policy. -/
theorem rules_local {policy : Policy} (h : policy.Usable) (known : List String) :
    ∀ rule ∈ rules, ∃ find, rule.Local policy known find := by
  intro rule hrule
  rcases List.mem_pair.mp hrule with rfl | rfl
  · choose excused hexcused using h.excuses known
    exact ⟨_, undefinedSymbol_local hexcused⟩
  · exact ⟨_, unusedRule_local policy known⟩

namespace Rule.Local

variable {rule : Rule} {policy : Policy} {known : List String} {find : Symbol → List Finding}

/-- Leaving out a symbol is leaving out the problems about it. -/
theorem problems_lower (h : rule.Local policy known find) (name : String)
    (symbols : List Symbol) :
    (((symbols.filter (·.name != name)).map (Symbol.lower 1)).flatMap find).map rule.problem =
      (((symbols.flatMap find).map rule.problem).filter (!·.concerns name)).map
        (Problem.lower 1) := by
  induction symbols with
  | nil => rfl
  | cons s symbols ih =>
      have habout : ∀ p ∈ (find s).map rule.problem, p.concerns name = (s.name == name) := by
        intro p hp
        obtain ⟨finding, hfinding, rfl⟩ := List.mem_map.mp hp
        exact h.concerns s finding hfinding name
      rw [List.flatMap_cons, List.map_append, List.filter_append, List.map_append, ← ih,
        List.filter_cons]
      by_cases hs : s.name = name
      · have hnone : ((find s).map rule.problem).filter (!·.concerns name) = [] := by
          rw [List.filter_eq_nil_iff]
          intro p hp
          simp [habout p hp, hs]
        rw [hnone]
        simp [hs]
      · have hall : ((find s).map rule.problem).filter (!·.concerns name) =
            (find s).map rule.problem := by
          rw [List.filter_eq_self]
          intro p hp
          simp [habout p hp, hs]
        have hkeep : (s.name != name) = true := bne_iff_ne.mpr hs
        rw [hall, if_pos hkeep, List.map_cons, List.flatMap_cons, List.map_append, h.lower,
          List.map_map, List.map_map]
        rfl

theorem flatMap_templates (h : rule.Local policy known find) {symbols : List Symbol}
    (hsymbols : ∀ s ∈ symbols, s.CalledOnly) : symbols.flatMap find = [] := by
  rw [List.flatMap_eq_nil_iff]
  intro s hs
  refine h.silent s (Or.inr (hsymbols s hs).references) ?_
  rw [(hsymbols s hs).kind]
  decide

/-- Under a declared token a rule finds what it finds without it, a line lower, but for the problems
about the token. -/
theorem runRule_beneath (h : rule.Local policy known find) {name : String} {table table' : Table}
    (hbeneath : Table.Beneath name table table') (hknown : table.parameterNames = known)
    (htemplates : ∀ s ∈ table.templates, s.CalledOnly) :
    (Validator.runRule policy table' rule).2 =
      ((Validator.runRule policy table rule).2.filter (!·.concerns name)).map
        (Problem.lower 1) := by
  obtain ⟨s, -, hdefined, hkind, hplain⟩ := hbeneath.plain
  have htemplates' : ∀ s ∈ table'.templates, s.CalledOnly := by
    rw [hbeneath.templates]
    intro s hs
    obtain ⟨t, ht, rfl⟩ := List.mem_map.mp hs
    exact ⟨List.map_eq_nil_iff.mpr (htemplates t ht).references, (htemplates t ht).kind⟩
  have hs : find s = [] := h.silent s (Or.inl hdefined) (by rw [hkind]; decide)
  have hfound : table.symbols.flatMap find = table.plain.flatMap find := by
    rw [Table.symbols, List.flatMap_append, h.flatMap_templates htemplates, List.nil_append]
  have hfound' : table'.symbols.flatMap find =
      ((table.plain.filter (·.name != name)).map (Symbol.lower 1)).flatMap find := by
    rw [Table.symbols, List.flatMap_append, h.flatMap_templates htemplates', List.nil_append,
      hplain, List.flatMap_cons, hs, List.nil_append]
  unfold Validator.runRule
  split
  · rw [h.check table hknown, h.check table' (hbeneath.parameterNames.trans hknown)]
    simp only [hfound, hfound']
    exact h.problems_lower name table.plain
  · rfl

end Rule.Local

end Lint

theorem Validator.runRules_beneath {policy : Policy} {name : String} {table table' : Table}
    (hbeneath : Table.Beneath name table table')
    (htemplates : ∀ s ∈ table.templates, s.CalledOnly)
    {rules rules' : List Lint.Rule} (hstyle : List.Forall₂ Lint.Rule.Restyled rules rules')
    (hrules : ∀ rule ∈ rules, ∃ find, rule.Local policy table.parameterNames find) :
    (rules'.map (runRule policy table')).flatMap (·.2) =
      (((rules'.map (runRule policy table)).flatMap (·.2)).filter (!·.concerns name)).map
        (Problem.lower 1) := by
  induction hstyle with
  | nil => rfl
  | @cons rule rule' rules rules' hrule _ ih =>
      obtain ⟨find, hlocal⟩ := hrules rule List.mem_cons_self
      have hrest := ih fun rule hrule => hrules rule (List.mem_cons_of_mem _ hrule)
      have hfirst := (hlocal.restyled hrule).runRule_beneath hbeneath rfl htemplates
      simp only [List.map_cons, List.flatMap_cons, List.filter_append, List.map_append, hfirst,
        hrest]

/-! ### The line of the declaration -/

/-- Whether a text can be the name of a symbol. -/
def isIdentifier : List Char → Bool
  | [] => false
  | c :: cs => isNameStart c && cs.all isNameChar

theorem isNameChar_of_isIdentifier {cs : List Char} (h : isIdentifier cs = true) :
    ∀ c ∈ cs, isNameChar c = true := by
  cases cs with
  | nil => nofun
  | cons c cs =>
      obtain ⟨hc, hcs⟩ := Bool.and_eq_true_iff.mp h
      exact List.forall_mem_cons.mpr ⟨isNameChar_of_isNameStart hc, List.all_eq_true.mp hcs⟩

theorem cut_identifier {cs : List Char} (h : isIdentifier cs = true) :
    cut cs = [.token .identifier cs cs.length] := by
  cases cs with
  | nil => nomatch h
  | cons c cs =>
      obtain ⟨hc, hcs⟩ := Bool.and_eq_true_iff.mp h
      have hall : cs.takeWhile isNameChar = cs :=
        List.takeWhile_eq_self_iff.mpr (List.all_eq_true.mp hcs)
      have hfirst : Piece.first c cs = .token .identifier (c :: cs) (c :: cs).length := by
        rw [Piece.first_of_isNameStart hc, hall]
        rfl
      rw [cut_cons, hfirst]
      simp only [Piece.width, List.drop_length]
      rfl

/-- The word `%token`, as it stands at the start of a text. -/
def tokenWord : Token := ⟨.directive, "%token", 0, 0, 6⟩

/-- The name after it. -/
def declaredName (name : String) : Token := ⟨.identifier, name, 0, 7, name.toList.length⟩

theorem cut_tokenWord (cs : List Char) :
    cut ("%token ".toList ++ cs) =
      .token .directive "%token".toList 6 :: .dropped ' ' :: cut cs := by
  have hword : Piece.first '%' ("token ".toList ++ cs) = .token .directive "%token".toList 6 := rfl
  have hblank : Piece.first ' ' cs = .dropped ' ' := rfl
  have hcut := cut_cons '%' ("token ".toList ++ cs)
  rw [hword] at hcut
  refine hcut.trans ?_
  refine congrArg _ ((cut_cons ' ' cs).trans ?_)
  rw [hblank]
  rfl

theorem scan_declaration {name : String} (h : isIdentifier name.toList = true) (text : String) :
    scan ("%token " ++ name ++ "\n" ++ text) =
      tokenWord :: declaredName name :: (scan text).map (Token.lower 1) := by
  have hnewline : '\n' ∉ name.toList := by
    intro hmem
    exact absurd (isNameChar_of_isIdentifier h _ hmem) (by decide)
  have hlist : ("%token " ++ name).toList = "%token ".toList ++ name.toList :=
    String.toList_append
  have hlines : splitLines ("%token " ++ name).toList = ["%token ".toList ++ name.toList] := by
    rw [hlist]
    refine splitLines_of_not_mem ?_
    rw [List.mem_append, not_or]
    exact ⟨by decide, hnewline⟩
  have hcut : cut ("%token ".toList ++ name.toList) =
      [.token .directive "%token".toList 6, .dropped ' ',
        .token .identifier name.toList name.toList.length] := by
    rw [cut_tokenWord, cut_identifier h]
  have hline : scanLine 0 ("%token ".toList ++ name.toList) = [tokenWord, declaredName name] := by
    rw [scanLine, hcut]
    simp only [place, Piece.width, String.ofList_toList]
    rfl
  rw [scan_below, hlines]
  simp only [scanLines, hline]
  rfl

/-- What a text says about symbols, in its order. -/
def operationsOf (text : String) : List Table.Operation :=
  (readItems .declarations (scan text)).1.flatMap Item.operations

/-- A declaration above a text that starts with its rules defines the name before all else. -/
theorem operations_declared {name : String} (h : isIdentifier name.toList = true) (text : String) :
    operationsOf ("%token " ++ name ++ "\n" ++ ("%%\n" ++ text)) =
      .define name .token ⟨(declaredName name).place, (declaredName name).place⟩ ::
        (operationsOf ("%%\n" ++ text)).map (·.lower 1) := by
  -- the separator at the start of the text ends the list of declared names
  obtain ⟨rest, hrest⟩ : ∃ rest, scan ("%%\n" ++ text) = ⟨.separator, "%%", 0, 0, 2⟩ :: rest :=
    ⟨_, scan_below "%%" text⟩
  have hread : readItem .declarations tokenWord
      (declaredName name :: (scan ("%%\n" ++ text)).map (Token.lower 1)) =
        ([.symbol (declaredName name) .token none],
          (scan ("%%\n" ++ text)).map (Token.lower 1)) := by
    rw [hrest]
    rfl
  rw [operationsOf, scan_declaration h, Written.readItems_cons .declarations rfl (by decide) hread]
  rw [operationsOf, ← operations_lower .declarations (placed_scan ("%%\n" ++ text))]
  rfl

/-- Declaring a token above a text that starts with its rules takes away the problems about that
name and no others; those that stay are a line lower, in the same order. -/
theorem declaration_silences {policy : Policy} (husable : policy.Usable) {settings : Json}
    {validator : Validator} (hvalidator : (Validator.make policy settings).2 = .ok validator)
    {name : String} (hname : isIdentifier name.toList = true) (text : String) :
    ∃ a b, (analyze policy settings ("%%\n" ++ text)).2 = .ok a ∧
      (analyze policy settings ("%token " ++ name ++ "\n%%\n" ++ text)).2 = .ok b ∧
      b.problems = (a.problems.filter (!·.concerns name)).map (Problem.lower 1) := by
  obtain ⟨rfl, hstyle⟩ := Validator.make_restyled hvalidator
  have htext : "%token " ++ name ++ "\n%%\n" ++ text =
      "%token " ++ name ++ "\n" ++ ("%%\n" ++ text) := by
    have hjoin : "\n%%\n" = "\n" ++ "%%\n" := rfl
    rw [hjoin]
    simp only [String.append_assoc]
  rw [htext]
  refine ⟨_, _, analyze_eq hvalidator (ofText_eq_run _),
    analyze_eq hvalidator (ofText_eq_run _), ?_⟩
  have hbeneath : Table.Beneath name (Table.empty.run (operationsOf ("%%\n" ++ text)))
      (Table.empty.run (operationsOf ("%token " ++ name ++ "\n" ++ ("%%\n" ++ text)))) := by
    rw [operations_declared hname]
    exact (Table.beneath_define name _).run _
  exact Validator.runRules_beneath hbeneath (Table.templates_run _) hstyle
    (Lint.rules_local husable _)

/-- A name is used, called like a template and has a rule of its own. -/
def numRules : String := "sum : num(plus) | num\nnum : digit"

theorem numRules_silenced :
    isIdentifier "num".toList = true ∧ ∃ a b,
      (analyze .default (.object []) ("%%\n" ++ numRules)).2 = .ok a ∧
      (analyze .default (.object []) ("%token num\n%%\n" ++ numRules)).2 = .ok b ∧
      a.problems.map Problem.message =
        ["Symbol 'plus' is not defined", "Symbol 'num' is not defined",
          "Symbol 'num' is not defined", "Symbol 'digit' is not defined",
          "Rule 'sum' is defined but never used"] ∧
      b.problems = (a.problems.filter (!·.concerns "num")).map (Problem.lower 1) := by
  have hname : isIdentifier "num".toList = true := by decide
  obtain ⟨a, b, ha, hb, hproblems⟩ :=
    declaration_silences Policy.usable_default Validator.make_default hname numRules
  have hmessages : (analyze .default (.object []) ("%%\n" ++ numRules)).2.toOption.map
      (·.problems.map Problem.message) =
        some ["Symbol 'plus' is not defined", "Symbol 'num' is not defined",
          "Symbol 'num' is not defined", "Symbol 'digit' is not defined",
          "Rule 'sum' is defined but never used"] := by
    decide +kernel
  rw [ha] at hmessages
  exact ⟨hname, a, b, ha, hb, Option.some.inj hmessages, hproblems⟩

end GrammarLens
