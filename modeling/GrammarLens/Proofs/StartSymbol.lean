import GrammarLens.Proofs.Declaring
import GrammarLens.Proofs.Placeholders
import GrammarLens.Proofs.Splitting

/-! # The start symbol and unused rules

Nothing has to refer to the start symbol, so it should not be reported as an unused rule.  What
keeps it out of the report is its kind alone: a name that `%start` defines is no rule.  Of several
definitions of a name the first counts.  So the start symbol is reported after all if a rule defines
it before `%start` does, and nothing refers to it.

`reported_iff` says of any plain name when it is reported, by the items of the file, and
`start_unreported_iff` what this means for the start symbol. -/

namespace GrammarLens

/-! ### What items say about a plain name -/

/-- The items of a text. -/
def itemsOf (text : String) : List Item := (readItems .declarations (scan text)).1

namespace Item

/-- The kind with which an item defines a plain name; none if it defines something else. -/
def definedKind? (name : String) : Item → Option Symbol.Kind
  | .symbol t kind _ => if t.value = name then some kind else none
  | .start t => if t.value = name then some .start else none
  | .rule r => if r.parameters = none ∧ r.name.value = name then some .rule else none

/-- The names that refer to nothing in an item. -/
def placeholders : Item → List String
  | .rule r => r.parameters.getD []
  | _ => []

/-- Whether an item is an entry in a list of declared symbols. -/
def isEntry : Item → Bool
  | .symbol _ _ _ => true
  | _ => false

/-- An item has a use that refers to the name. -/
def Refers (item : Item) (name : String) : Prop :=
  ∃ use ∈ item.uses, use.Refers item.placeholders name

instance (item : Item) (name : String) : Decidable (item.Refers name) :=
  inferInstanceAs (Decidable (∃ use ∈ item.uses, use.Refers item.placeholders name))

end Item

theorem Use.reference?_operations (placeholders : List String) (name : String) (use : Use) :
    (use.operations placeholders).filterMap (·.reference? name) = [] ↔
      ¬use.Refers placeholders name := by
  cases use with
  | name t =>
      by_cases hmem : t.value ∈ placeholders
      · simp only [Use.operations, List.contains_iff_mem.mpr hmem, if_true, List.filterMap_nil,
          Use.Refers, true_iff, not_and, not_not]
        rintro rfl
        exact hmem
      · by_cases hname : t.value = name
        · subst hname
          simp [Use.operations, Use.Refers, Table.Operation.reference?, hmem]
        · simp [Use.operations, Use.Refers, Table.Operation.reference?, hmem, hname]
  | precedence t =>
      by_cases hname : t.value = name
      · simp [Use.operations, Use.Refers, Table.Operation.reference?, hname]
      · simp [Use.operations, Use.Refers, Table.Operation.reference?, hname]
  | call t last names => simp [Use.operations, Use.Refers, Table.Operation.reference?]

/-- A use refers or calls, and does nothing else. -/
theorem Use.mem_operations {placeholders : List String} {use : Use} {op : Table.Operation}
    (h : op ∈ use.operations placeholders) :
    (∃ n span, op = .refer n span) ∨ ∃ n c, op = .call n c := by
  cases use with
  | name t =>
      rw [Use.operations] at h
      split at h
      · cases h
      · exact Or.inl ⟨_, _, List.mem_singleton.mp h⟩
  | precedence t => exact Or.inl ⟨_, _, List.mem_singleton.mp h⟩
  | call t last names => exact Or.inr ⟨_, _, List.mem_singleton.mp h⟩

theorem Rule.mem_tagging {rule : Rule} {op : Table.Operation} (h : op ∈ rule.tagging) :
    ∃ n tag, op = .tagPlain n tag ∨ op = .tagTemplate n tag := by
  rw [Rule.tagging] at h
  split at h
  · cases h
  · exact ⟨_, _, Or.inl (List.mem_singleton.mp h)⟩
  · exact ⟨_, _, Or.inr (List.mem_singleton.mp h)⟩

/-- Behind its definition a rule gives a tag, refers and calls, and does nothing else. -/
theorem Rule.mem_rest {rule : Rule} {op : Table.Operation}
    (h : op ∈ rule.tagging ++ rule.uses.flatMap (Use.operations (rule.parameters.getD []))) :
    (∃ n tag, op = .tagPlain n tag ∨ op = .tagTemplate n tag) ∨
      (∃ n span, op = .refer n span) ∨ ∃ n c, op = .call n c := by
  rcases List.mem_append.mp h with h | h
  · exact Or.inl (Rule.mem_tagging h)
  · obtain ⟨use, -, h⟩ := List.mem_flatMap.mp h
    exact Or.inr (Use.mem_operations h)

theorem Rule.defining_spec (rule : Rule) (name : String) :
    (rule.defining.definition? name).map Prod.fst = Item.definedKind? name (.rule rule) ∧
      rule.defining.reference? name = none := by
  cases hparameters : rule.parameters with
  | none =>
      by_cases hname : rule.name.value = name
      · simp [Rule.defining, hparameters, Table.Operation.definition?, Table.Operation.reference?,
          Item.definedKind?, hname]
      · simp [Rule.defining, hparameters, Table.Operation.definition?, Table.Operation.reference?,
          Item.definedKind?, hname]
  | some names =>
      simp [Rule.defining, hparameters, Table.Operation.definition?, Table.Operation.reference?,
        Item.definedKind?]

theorem Item.definition?_operations (name : String) (item : Item) :
    (item.operations.findSome? (·.definition? name)).map Prod.fst = item.definedKind? name := by
  cases item with
  | symbol t kind typeTag =>
      by_cases hname : t.value = name
      · simp [Item.operations, Item.definedKind?, Table.Operation.definition?, hname]
      · cases typeTag <;>
          simp [Item.operations, Item.definedKind?, Table.Operation.definition?, hname]
  | start t =>
      by_cases hname : t.value = name <;>
        simp [Item.operations, Item.definedKind?, Table.Operation.definition?, hname]
  | rule r =>
      -- Only the first operation of a rule defines something.
      have hrest : (r.tagging ++ r.uses.flatMap (Use.operations (r.parameters.getD []))).findSome?
          (·.definition? name) = none := by
        rw [List.findSome?_eq_none_iff]
        intro op hop
        obtain ⟨n, tag, rfl | rfl⟩ | ⟨n, span, rfl⟩ | ⟨n, c, rfl⟩ := Rule.mem_rest hop <;> rfl
      rw [Item.operations, List.findSome?_cons, hrest, ← (r.defining_spec name).1]
      cases r.defining.definition? name <;> rfl

theorem Item.reference?_operations (name : String) (item : Item) :
    item.operations.filterMap (·.reference? name) = [] ↔ ¬item.Refers name := by
  cases item with
  | symbol t kind typeTag =>
      cases typeTag <;>
        simp [Item.operations, Item.Refers, Item.uses, Table.Operation.reference?]
  | start t => simp [Item.operations, Item.Refers, Item.uses, Table.Operation.reference?]
  | rule r =>
      have htagging : r.tagging.filterMap (·.reference? name) = [] := by
        rw [List.filterMap_eq_nil_iff]
        intro op hop
        obtain ⟨n, tag, rfl | rfl⟩ := Rule.mem_tagging hop <;> rfl
      rw [Item.operations, List.filterMap_cons, (r.defining_spec name).2]
      simp only [List.filterMap_append, htagging, List.nil_append, List.filterMap_flatMap,
        List.flatMap_eq_nil_iff, Use.reference?_operations, Item.Refers, Item.uses,
        Item.placeholders, not_exists, not_and]

/-- The first definition of a name among the operations of items is that of the first item with
one. -/
theorem definition?_flatMap_operations (name : String) (items : List Item) :
    ((items.flatMap Item.operations).findSome? (·.definition? name)).map Prod.fst =
      items.findSome? (·.definedKind? name) := by
  induction items with
  | nil => rfl
  | cons item items ih =>
      have hitem := item.definition?_operations name
      rw [List.flatMap_cons, List.findSome?_append, List.findSome?_cons, ← hitem, ← ih]
      cases item.operations.findSome? (·.definition? name) <;> rfl

theorem reference?_flatMap_operations (name : String) (items : List Item) :
    (items.flatMap Item.operations).filterMap (·.reference? name) = [] ↔
      ∀ item ∈ items, ¬item.Refers name := by
  simp only [List.filterMap_flatMap, List.flatMap_eq_nil_iff, Item.reference?_operations]

/-! ### Names of start symbols -/

theorem exists_setStart_of_start {ops : List Table.Operation} {name : String}
    (h : (Table.empty.run ops).start = some name) : .setStart name ∈ ops := by
  induction ops using List.reverseRecOn with
  | nil => cases h
  | append_singleton ops op ih =>
      rw [Table.run_append, Table.run_cons, Table.run_nil] at h
      cases op with
      | setStart m =>
          cases h
          exact List.mem_append_right _ List.mem_cons_self
      | _ => exact List.mem_append_left _ (ih h)

theorem exists_start_of_setStart {items : List Item} {name : String}
    (h : .setStart name ∈ items.flatMap Item.operations) :
    ∃ t, .start t ∈ items ∧ t.value = name := by
  obtain ⟨item, hitem, hop⟩ := List.mem_flatMap.mp h
  cases item with
  | symbol t kind typeTag => cases typeTag <;> simp [Item.operations] at hop
  | start t =>
      refine ⟨t, hitem, ?_⟩
      simpa [Item.operations, eq_comm] using hop
  | rule r =>
      rcases List.mem_cons.mp hop with hop | hop
      · rw [Rule.defining] at hop
        split at hop <;> cases hop
      · rcases List.mem_append.mp hop with hop | hop
        · obtain ⟨n, tag, hop | hop⟩ := Rule.mem_tagging hop <;> cases hop
        · obtain ⟨use, -, hop⟩ := List.mem_flatMap.mp hop
          obtain ⟨n, span, hop⟩ | ⟨n, c, hop⟩ := Use.mem_operations hop <;> cases hop

theorem isName_of_mem_readDeclaredRule {directive : Token} {ts : List Token} {item : Item}
    (h : item ∈ (readDeclaredRule directive ts).1) : item.name.isName = true := by
  unfold readDeclaredRule at h
  split at h
  · cases h
  · split at h
    · rename_i hname
      cases List.mem_singleton.mp h
      exact hname
    · cases h

theorem isName_of_mem_readItem {place : Section} {u : Token} {rest : List Token} {item : Item}
    (hentry : item.isEntry = false)
    (h : item ∈ (readItem place u rest).1) : item.name.isName = true := by
  cases place with
  | declarations =>
      simp only [readItem, readDeclaration] at h
      split at h
      · split at h
        · obtain ⟨t, -, rfl⟩ := List.mem_map.mp h
          cases hentry
        · cases rest with
          | nil => cases h
          | cons v rest =>
              rw [readStart] at h
              split at h
              · rename_i hname
                cases List.mem_singleton.mp h
                exact hname
              · cases h
        · obtain ⟨t, -, rfl⟩ := List.mem_map.mp h
          cases hentry
        · cases h
        · exact isName_of_mem_readDeclaredRule h
        · cases h
      · split at h <;> cases h
  | rules =>
      simp only [readItem, readRule] at h
      split at h
      · exact isName_of_mem_readDeclaredRule h
      · split at h
        · rename_i hname
          split at h
          · cases List.mem_singleton.mp h
            exact hname
          · cases h
        · cases h
  | epilogue => cases h

/-- Start symbols and rules are called by names; only an entry of a list may be a literal. -/
theorem isName_of_mem_readItems {place : Section} {ts : List Token} {item : Item}
    (hentry : item.isEntry = false)
    (h : item ∈ (readItems place ts).1) : item.name.isName = true := by
  fun_induction readItems place ts with
  | case1 | case2 => cases h
  | case3 place u rest _ _ ih => exact ih h
  | case4 place u rest _ _ ih =>
      rcases List.mem_append.mp h with h | h
      · exact isName_of_mem_readItem hentry h
      · exact ih h

theorem isIdentifier_of_mem_scan {text : String} {t : Token} (h : t ∈ scan text)
    (hname : t.isName = true) : isIdentifier t.value.toList = true := by
  have hmem : t ∈ scanLines 0 (splitLines text.toList) := by
    rcases List.mem_append.mp h with h | h
    · exact h
    · rw [List.mem_singleton.mp h] at hname
      cases hname
  have hkind : t.kind = .identifier := eq_of_beq hname
  have hrespells := respells_of_mem_scanLines (newline_not_mem_splitLines text.toList) t hmem
  obtain ⟨c, cs, -, hfirst⟩ := hrespells.first [] fun _ hc => nomatch hc
  have hdue := Piece.first_due c cs
  rw [hfirst, hkind] at hdue
  obtain ⟨-, d, ds, hvalue, hd, hds⟩ := hdue
  rw [hvalue]
  exact Bool.and_eq_true_iff.mpr ⟨hd, List.all_eq_true.mpr hds⟩

theorem isLiteral_of_isIdentifier {name : String} (h : isIdentifier name.toList = true) :
    Policy.isLiteral name = false := by
  rw [Policy.isLiteral]
  cases hname : name.toList with
  | nil => rfl
  | cons c cs =>
      rw [hname] at h
      have hc : isNameStart c = true := (Bool.and_eq_true_iff.mp h).1
      have hquote : c ≠ '\'' := by
        rintro rfl
        cases hc
      simp [hquote]

/-- The name of a start symbol is no character literal. -/
theorem isLiteral_of_start {text : String} {name : String}
    (h : (Table.empty.run ((itemsOf text).flatMap Item.operations)).start = some name) :
    Policy.isLiteral name = false := by
  obtain ⟨t, hitem, rfl⟩ := exists_start_of_setStart (exists_setStart_of_start h)
  have hmem : t ∈ scan text := by
    refine (reads_readItems .declarations (scan text)).tokens_mem t ?_
    exact List.mem_flatMap.mpr ⟨.start t, hitem, List.mem_cons_self⟩
  have hname : (Item.start t).name.isName = true := isName_of_mem_readItems rfl hitem
  exact isLiteral_of_isIdentifier (isIdentifier_of_mem_scan hmem hname)

/-! ### Reports about a name -/

namespace Lint

theorem unused?_isSome (s : Symbol) : (unused? s).isSome = isUnused s := by
  unfold unused?
  split
  · rename_i hunused
    have hdefined : s.definition.isSome = true := by
      simp only [isUnused, Bool.and_eq_true] at hunused
      exact hunused.1.1.1.2
    rw [Option.isSome_map, hdefined, hunused]
  · rename_i hused
    exact (Bool.eq_false_iff.mpr hused).symm

/-- The rule against unused rules reports a name just if a symbol with that name is unused. -/
theorem concerns_unusedRule_iff (table : Table) (policy : Policy) (name : String) :
    (∃ p ∈ (Validator.runRule policy table unusedRule).2, p.concerns name = true) ↔
      ∃ s ∈ table.symbols, isUnused s = true ∧ s.name = name := by
  have hrun : (Validator.runRule policy table unusedRule).2 =
      (table.symbols.filterMap unused?).map unusedRule.problem := rfl
  have hconcerns := (unusedRule_local policy []).concerns
  rw [hrun]
  constructor
  · rintro ⟨p, hp, habout⟩
    obtain ⟨finding, hfinding, rfl⟩ := List.mem_map.mp hp
    obtain ⟨s, hs, hfound⟩ := List.mem_filterMap.mp hfinding
    rw [hconcerns s finding (Option.mem_toList.mpr hfound)] at habout
    refine ⟨s, hs, ?_, eq_of_beq habout⟩
    rw [← unused?_isSome, hfound]
    rfl
  · rintro ⟨s, hs, hunused, rfl⟩
    rw [← unused?_isSome] at hunused
    obtain ⟨finding, hfound⟩ := Option.isSome_iff_exists.mp hunused
    refine ⟨_, List.mem_map_of_mem (List.mem_filterMap.mpr ⟨s, hs, hfound⟩), ?_⟩
    rw [hconcerns s finding (Option.mem_toList.mpr hfound)]
    exact beq_self_eq_true s.name

end Lint

/-- After a history, a name that is no literal is unused just if its first definition is a rule and
nothing refers to it. -/
theorem isUnused_after_iff (ops : List Table.Operation) {name : String}
    (hliteral : Policy.isLiteral name = false) :
    Lint.isUnused (Table.Side.plain.after ops name) = true ↔
      (ops.findSome? (·.definition? name)).map Prod.fst = some .rule ∧
        ops.filterMap (·.reference? name) = [] := by
  rw [Table.plain_after]
  cases ops.findSome? (·.definition? name) with
  | none => simp [Lint.isUnused]
  | some first => simp [Lint.isUnused, Symbol.isDefined, hliteral]

/-- An unused symbol with a name is the plain one. -/
theorem exists_isUnused_iff (ops : List Table.Operation) (name : String) :
    (∃ s ∈ (Table.empty.run ops).symbols, Lint.isUnused s = true ∧ s.name = name) ↔
      Lint.isUnused (Table.Side.plain.after ops name) = true := by
  have hplain : (Table.empty.run ops).plain = _ := Table.symbols_run .plain ops
  constructor
  · rintro ⟨s, hs, hunused, rfl⟩
    rcases List.mem_append.mp hs with hs | hs
    · have hkind := (Table.templates_run ops s hs).kind
      simp [Lint.isUnused, hkind] at hunused
    · rw [hplain] at hs
      obtain ⟨n, -, rfl⟩ := List.mem_map.mp hs
      rw [Table.Side.after_name]
      exact hunused
  · intro hunused
    refine ⟨_, List.mem_append_right _ ?_, hunused, Table.Side.after_name _ ops name⟩
    rw [hplain]
    refine List.mem_map_of_mem (by_contra fun hnew => ?_)
    rw [Table.Side.after_of_not_mem _ hnew] at hunused
    cases hunused

theorem kind_of_mem_runRule {policy : Policy} {table : Table} {rule : Lint.Rule} {p : Problem}
    (h : p ∈ (Validator.runRule policy table rule).2) : p.kind = rule.kind := by
  unfold Validator.runRule at h
  split at h
  · split at h
    · obtain ⟨finding, -, rfl⟩ := List.mem_map.mp h
      rfl
    · cases h
  · cases h

/-- In an analysis the reports of unused rules come from the rule against them. -/
theorem exists_unusedRule_iff (table : Table) (name : String) :
    (∃ p ∈ (Validator.run ⟨.default, Lint.rules⟩ table).2,
        p.kind = .unusedRule ∧ p.concerns name = true) ↔
      ∃ p ∈ (Validator.runRule .default table Lint.unusedRule).2, p.concerns name = true := by
  have hrun : (Validator.run ⟨.default, Lint.rules⟩ table).2 =
      (Validator.runRule .default table Lint.undefinedSymbol).2 ++
        ((Validator.runRule .default table Lint.unusedRule).2 ++ []) := rfl
  rw [hrun, List.append_nil]
  constructor
  · rintro ⟨p, hp, hkind, habout⟩
    rcases List.mem_append.mp hp with hp | hp
    · rw [kind_of_mem_runRule hp] at hkind
      cases hkind
    · exact ⟨p, hp, habout⟩
  · rintro ⟨p, hp, habout⟩
    exact ⟨p, List.mem_append_right _ hp, kind_of_mem_runRule hp, habout⟩

/-- A plain name that is no literal is reported just if the first item that defines it is a rule and
nothing refers to it. -/
theorem reported_iff (text : String) {name : String} (hliteral : Policy.isLiteral name = false) :
    (∃ p ∈ (Validator.run ⟨.default, Lint.rules⟩
        (Table.empty.run ((itemsOf text).flatMap Item.operations))).2,
        p.kind = .unusedRule ∧ p.concerns name = true) ↔
      (itemsOf text).findSome? (·.definedKind? name) = some .rule ∧
        ∀ item ∈ itemsOf text, ¬item.Refers name := by
  rw [exists_unusedRule_iff, Lint.concerns_unusedRule_iff, exists_isUnused_iff,
    isUnused_after_iff _ hliteral, definition?_flatMap_operations, reference?_flatMap_operations]

/-- The start symbol is not reported as an unused rule just if its first definition is no rule, as
it is when `%start` comes before all rules for it, or something refers to it. -/
theorem start_unreported_iff (text : String) :
    ∃ a, (analyze .default (.object []) text).2 = .ok a ∧ ∀ name, a.table.start = some name →
      ((∀ p ∈ a.problems, p.kind = .unusedRule → p.concerns name = false) ↔
        (itemsOf text).findSome? (·.definedKind? name) ≠ some .rule ∨
          ∃ item ∈ itemsOf text, item.Refers name) := by
  refine ⟨_, analyze_eq Validator.make_default (ofText_eq_run text), fun name hstart => ?_⟩
  have hreported := reported_iff text (isLiteral_of_start hstart)
  constructor
  · intro hsilent
    by_contra hopen
    obtain ⟨hrule, hunused⟩ := not_or.mp hopen
    obtain ⟨p, hp, hkind, habout⟩ := hreported.mpr
      ⟨not_not.mp hrule, fun item hitem hrefers => hunused ⟨item, hitem, hrefers⟩⟩
    rw [hsilent p hp hkind] at habout
    cases habout
  · intro hkept p hp hkind
    refine Bool.eq_false_iff.mpr fun habout => ?_
    obtain ⟨hrule, hunused⟩ := hreported.mp ⟨p, hp, hkind, habout⟩
    rcases hkept with hkept | ⟨item, hitem, hrefers⟩
    · exact hkept hrule
    · exact hunused item hitem hrefers

/-- The start symbol has a rule before its declaration, and a template uses it. -/
def startedText : String := "%rule n : ;\n%rule t(x) : x n ;\n%start n\n%%\n"

theorem startedText_unreported :
    ∃ a, (analyze .default (.object []) startedText).2 = .ok a ∧ a.table.start = some "n" ∧
      ∀ p ∈ a.problems, p.kind = .unusedRule → p.concerns "n" = false := by
  obtain ⟨a, ha, hiff⟩ := start_unreported_iff startedText
  have hstart : (analyze .default (.object []) startedText).2.toOption.map (·.table.start) =
      some (some "n") := by decide +kernel
  rw [ha] at hstart
  have hrefers : ∃ item ∈ itemsOf startedText, item.Refers "n" := by decide +kernel
  exact ⟨a, ha, Option.some.inj hstart,
    (hiff "n" (Option.some.inj hstart)).mpr (Or.inr hrefers)⟩

/-- A rule before the declaration of the start symbol makes it a rule, which is reported. -/
theorem start_behind_rule_reported :
    ¬∀ (text : String) (a : Analysis) (name : String),
      (analyze .default (.object []) text).2 = .ok a → a.table.start = some name →
        ∀ p ∈ a.problems, p.kind = .unusedRule → p.concerns name = false := by
  intro h
  have hfound : (analyze .default (.object []) "%rule n : ;\n%start n\n%%\n").2.toOption.map
      (fun a => (a.table.start, a.problems.any fun p => p.kind == .unusedRule && p.concerns "n")) =
        some (some "n", true) := by decide +kernel
  cases ha : (analyze .default (.object []) "%rule n : ;\n%start n\n%%\n").2 with
  | error failure =>
      rw [ha] at hfound
      cases hfound
  | ok a =>
      rw [ha] at hfound
      obtain ⟨hstart, hreported⟩ := Prod.mk.inj (Option.some.inj hfound)
      obtain ⟨p, hp, hp'⟩ := List.any_eq_true.mp hreported
      obtain ⟨hkind, habout⟩ := Bool.and_eq_true_iff.mp hp'
      rw [h _ a "n" ha hstart p hp (eq_of_beq hkind)] at habout
      cases habout

end GrammarLens
