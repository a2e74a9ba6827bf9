import GrammarLens.Proofs.StartSymbol

/-! # Templates that are declared more than once

Of several declarations of a template the first counts: it gives the template its place and its
parameters, and a further one adds what its body uses.  The type tag is the exception.  A
declaration that has one gives it to the template, whether or not it is the first.

A tag can be given to a declared template at any later time as well, since nothing else that is done
to a table looks at it (`retag_run`).  So the declarations of a file amount to the first one, the
bodies of the others and the last of their tags (`run_operations_eq_retag`).  They amount to the
first one and the bodies alone just if that tag says nothing new (`redeclaration_ignored_iff`). -/

namespace GrammarLens

/-! ### Changes in either order -/

namespace SymbolList

/-- Two changes can be done in either order, if it makes no difference on one symbol and if one of
the changed symbols is there already. -/
theorem alter_comm (blank blank' : Symbol) {change change' : Symbol → Symbol}
    (hname : ∀ s, (change s).name = s.name) (hname' : ∀ s, (change' s).name = s.name)
    (hcomm : blank'.name = blank.name → ∀ s, change' (change s) = change (change' s))
    {symbols : SymbolList} (hmem : (get? symbols blank.name).isSome = true) :
    alter blank' change' (alter blank change symbols) =
      alter blank change (alter blank' change' symbols) := by
  induction symbols with
  | nil => cases hmem
  | cons s symbols ih =>
      rw [alter, alter.eq_2 blank']
      by_cases hs : s.name = blank.name
      · by_cases hs' : s.name = blank'.name
        · rw [if_pos hs, if_pos hs', alter, alter, hname, hname', if_pos hs, if_pos hs',
            hcomm (hs'.symm.trans hs)]
        · rw [if_pos hs, if_neg hs', alter, alter, hname, if_pos hs, if_neg hs']
      · by_cases hs' : s.name = blank'.name
        · rw [if_neg hs, if_pos hs', alter, alter, hname', if_neg hs, if_pos hs']
        · have hrest : (get? symbols blank.name).isSome = true := by
            rwa [get?, List.find?_cons_of_neg (by simpa using hs)] at hmem
          rw [if_neg hs, if_neg hs', alter, alter, if_neg hs, if_neg hs', ih hrest]

/-- Two changes of one symbol are one change. -/
theorem alter_alter (blank : Symbol) {change : Symbol → Symbol} (change' : Symbol → Symbol)
    (hname : ∀ s, (change s).name = s.name) (symbols : SymbolList) :
    alter blank change' (alter blank change symbols) =
      alter blank (fun s => change' (change s)) symbols := by
  induction symbols with
  | nil => rw [alter, alter, alter, hname, if_pos rfl]
  | cons s symbols ih =>
      rw [alter, alter.eq_2 blank fun s => change' (change s)]
      by_cases hs : s.name = blank.name
      · rw [if_pos hs, if_pos hs, alter, hname, if_pos hs]
      · rw [if_neg hs, if_neg hs, alter, if_neg hs, ih]

end SymbolList

/-! ### Tags of templates -/

namespace Table

/-- Gives a template a type tag, if there is one to give. -/
def retag (table : Table) (name : String) : Option String → Table
  | none => table
  | some tag => table.tagTemplate name tag

theorem retag_retag (table : Table) (name : String) (tag tag' : Option String) :
    (table.retag name tag).retag name tag' = table.retag name (tag'.or tag) := by
  cases tag' with
  | none => rfl
  | some t' =>
      cases tag with
      | none => rfl
      | some t =>
          have htwice := SymbolList.alter_alter (blankTemplate name)
            (Operation.tagTemplate name t').change (Operation.tagTemplate name t).change_name
            table.templates
          exact congrArg (fun templates => { table with templates := templates }) htwice

section Declared

variable {table : Table} {name : String}

theorem defines_apply (h : table.templates.defines name = true) (op : Operation) :
    (table.apply op).templates.defines name = true := by
  obtain ⟨s, hs, hdefined⟩ := (Option.any_eq_true _ _).mp h
  cases hop : Side.template.name? op with
  | none =>
      have htemplates : (table.apply op).templates = table.templates :=
        Side.template.symbols_apply_of_none hop table
      rw [htemplates, h]
  | some m =>
      have htemplates : (table.apply op).templates =
          table.templates.alter (Side.template.blank m) op.change :=
        Side.template.symbols_apply_of_some hop table
      rw [htemplates, SymbolList.defines, SymbolList.get?_alter _ _ op.change_name, hs]
      split
      · exact (op.change_of_isDefined hdefined).1
      · exact hdefined

theorem defines_run (h : table.templates.defines name = true) (ops : List Operation) :
    (table.run ops).templates.defines name = true := by
  induction ops generalizing table with
  | nil => exact h
  | cons op ops ih => exact ih (defines_apply h op)

/-- What gives no tag to a template does not look at its tag. -/
theorem Operation.change_tagged {op : Operation} (hop : op.tag? .template name = none)
    (hname : Side.template.name? op = some name) (t : String) (s : Symbol) :
    op.change ((Operation.tagTemplate name t).change s) =
      (Operation.tagTemplate name t).change (op.change s) := by
  cases op with
  | define | refer | tagPlain | setStart => cases hname
  | defineTemplate m parameters d =>
      have hsame : ((Operation.tagTemplate name t).change s).isDefined = s.isDefined := rfl
      simp only [Operation.change.eq_2, hsame]
      split <;> rfl
  | call m c => rfl
  | tagTemplate m u => simp [Operation.tag?, Option.some.inj hname] at hop

/-- An operation that gives no tag to a template can be done before the tag is given. -/
theorem retag_apply (h : table.templates.defines name = true) {op : Operation}
    (hop : op.tag? .template name = none) (tag : Option String) :
    (table.retag name tag).apply op = (table.apply op).retag name tag := by
  cases tag with
  | none => rfl
  | some t =>
      have hmem : (table.templates.get? (blankTemplate name).name).isSome = true := by
        obtain ⟨s, hs, -⟩ := (Option.any_eq_true _ _).mp h
        rw [Option.isSome_iff_exists]
        exact ⟨s, hs⟩
      have hcomm (m : String) (hm : Side.template.name? op = some m) :=
        SymbolList.alter_comm (blankTemplate name) (blankTemplate m)
          (Operation.tagTemplate name t).change_name op.change_name
          (fun hname => Operation.change_tagged hop (hm.trans (congrArg some hname)) t) hmem
      cases op with
      | define | refer | tagPlain | setStart => rfl
      | defineTemplate m | call m | tagTemplate m =>
          exact congrArg (fun templates => { table with templates := templates }) (hcomm m rfl)

theorem retag_run (h : table.templates.defines name = true) {ops : List Operation}
    (hops : ∀ op ∈ ops, op.tag? .template name = none) (tag : Option String) :
    (table.retag name tag).run ops = (table.run ops).retag name tag := by
  induction ops generalizing table with
  | nil => rfl
  | cons op ops ih =>
      rw [List.forall_mem_cons] at hops
      rw [run_cons, run_cons, retag_apply h hops.1, ih (defines_apply h op) hops.2]

end Declared

end Table

/-! ### Declarations among items -/

/-- The operations of the body of a rule. -/
def Rule.bodyOperations (rule : Rule) : List Table.Operation :=
  rule.uses.flatMap (Use.operations (rule.parameters.getD []))

namespace Item

theorem operations_rule (r : Rule) :
    (Item.rule r).operations = r.defining :: (r.tagging ++ r.bodyOperations) := rfl

/-- The rule with which an item declares a template. -/
def templateRule? (name : String) : Item → Option Rule
  | .rule r => if r.parameters.isSome ∧ r.name.value = name then some r else none
  | _ => none

/-- The operations of an item behind a declaration of a template.  Of another declaration of the
template only the body counts. -/
def operationsAfter (name : String) (item : Item) : List Table.Operation :=
  match item.templateRule? name with
  | none => item.operations
  | some r => r.bodyOperations

theorem eq_rule_of_templateRule? {name : String} {item : Item} {r : Rule}
    (h : item.templateRule? name = some r) :
    item = .rule r ∧ (∃ names, r.parameters = some names) ∧ r.name.value = name := by
  cases item with
  | symbol | start => cases h
  | rule =>
      rw [templateRule?] at h
      split at h
      · rename_i hdeclares
        obtain rfl := Option.some.inj h
        exact ⟨rfl, Option.isSome_iff_exists.mp hdeclares.1, hdeclares.2⟩
      · cases h

end Item

theorem Rule.tag?_bodyOperations {rule : Rule} {op : Table.Operation}
    (h : op ∈ rule.bodyOperations) (side : Table.Side) (name : String) :
    op.tag? side name = none := by
  obtain ⟨use, -, hop⟩ := List.mem_flatMap.mp h
  obtain ⟨n, span, rfl⟩ | ⟨n, c, rfl⟩ := Use.mem_operations hop <;> rfl

theorem Rule.tag?_defining (rule : Rule) (side : Table.Side) (name : String) :
    rule.defining.tag? side name = none := by
  unfold Rule.defining
  cases rule.parameters <;> rfl

/-- The tags that the operations of an item give to a template are those of a declaration of it. -/
theorem Item.tag?_operations (name : String) (item : Item) :
    item.operations.filterMap (·.tag? .template name) =
      ((item.templateRule? name).bind Rule.typeTag).toList := by
  cases item with
  | symbol t kind typeTag => cases typeTag <;> rfl
  | start t => rfl
  | rule r =>
      have hbody : r.bodyOperations.filterMap (·.tag? .template name) = [] :=
        List.filterMap_eq_nil_iff.mpr fun op hop => Rule.tag?_bodyOperations hop .template name
      rw [Item.operations_rule, List.filterMap_cons, r.tag?_defining, List.filterMap_append, hbody,
        List.append_nil, Item.templateRule?, Rule.tagging]
      by_cases hname : r.name.value = name
      · cases r.parameters <;> cases ht : r.typeTag <;> simp [Table.Operation.tag?, hname, ht]
      · cases r.parameters <;> cases r.typeTag <;> simp [Table.Operation.tag?, hname]

/-- Behind a declaration of a template, what is left of an item gives it no tag. -/
theorem Item.tag?_operationsAfter {name : String} {item : Item} {op : Table.Operation}
    (h : op ∈ item.operationsAfter name) : op.tag? .template name = none := by
  unfold operationsAfter at h
  split at h
  · rename_i hrule
    have hnone := item.tag?_operations name
    rw [hrule] at hnone
    exact List.filterMap_eq_nil_iff.mp hnone op h
  · exact Rule.tag?_bodyOperations h .template name

/-- The place and the parameters that an item gives to a template are those of a declaration of
it. -/
theorem Item.templateDefinition?_operations (name : String) (item : Item) :
    item.operations.findSome? (·.templateDefinition? name) =
      (item.templateRule? name).map fun rule => (rule.parameters.getD [], rule.definition) := by
  cases item with
  | symbol t kind typeTag => cases typeTag <;> rfl
  | start t => rfl
  | rule r =>
      have hrest :
          (r.tagging ++ r.bodyOperations).findSome? (·.templateDefinition? name) = none := by
        rw [List.findSome?_eq_none_iff]
        intro op hop
        obtain ⟨n, tag, rfl | rfl⟩ | ⟨n, span, rfl⟩ | ⟨n, c, rfl⟩ := Rule.mem_rest hop <;> rfl
      rw [Item.operations_rule, List.findSome?_cons, hrest, Item.templateRule?, Rule.defining]
      by_cases hname : r.name.value = name
      · cases hp : r.parameters <;> simp [Table.Operation.templateDefinition?, hname, hp]
      · cases r.parameters <;> simp [Table.Operation.templateDefinition?, hname]

/-- The last type tag among rules. -/
def lastTag? (rules : List Rule) : Option String := (rules.filterMap Rule.typeTag).getLast?

theorem lastTag?_cons (rule : Rule) (rules : List Rule) :
    lastTag? (rule :: rules) = (lastTag? rules).or rule.typeTag := by
  rw [lastTag?, List.filterMap_cons]
  cases rule.typeTag with
  | none => exact Option.or_none.symm
  | some tag =>
      rw [List.getLast?_cons, lastTag?]
      cases (rules.filterMap Rule.typeTag).getLast? <;> rfl

/-- The operations of items of which the first declaration of a template is read in full, and of the
others only the bodies. -/
def declaredOnce (name : String) : List Item → List Table.Operation
  | [] => []
  | item :: items =>
    item.operations ++
      if (item.templateRule? name).isSome then items.flatMap (Item.operationsAfter name)
      else declaredOnce name items

namespace Table

/-- A rule that declares a template makes it defined. -/
theorem defines_apply_defining (table : Table) {rule : Rule}
    (h : ∃ names, rule.parameters = some names) :
    (table.apply rule.defining).templates.defines rule.name.value = true := by
  obtain ⟨names, hparameters⟩ := h
  have hdefining : rule.defining = .defineTemplate rule.name.value names rule.definition := by
    rw [Rule.defining, hparameters]
  have htemplates : (table.apply rule.defining).templates = table.templates.alter
      (blankTemplate rule.name.value) rule.defining.change := by
    rw [hdefining]
    rfl
  have hchange (s : Symbol) : (rule.defining.change s).isDefined = true := by
    rw [hdefining, Operation.change]
    split
    · assumption
    · rfl
  have hname : rule.name.value = (blankTemplate rule.name.value).name := rfl
  rw [htemplates, SymbolList.defines, SymbolList.get?_alter _ _ rule.defining.change_name,
    if_pos hname]
  exact hchange _

/-- Tagging a rule that declares a template is giving the template a tag. -/
theorem run_tagging (table : Table) {rule : Rule} (h : ∃ names, rule.parameters = some names) :
    table.run rule.tagging = table.retag rule.name.value rule.typeTag := by
  obtain ⟨names, hparameters⟩ := h
  rw [Rule.tagging, hparameters]
  cases rule.typeTag <;> rfl

section Declared

variable {table : Table} {name : String} (h : table.templates.defines name = true)
  (tag : Option String)
include h

/-- Behind the declaration of a template, an item amounts to what is left of it and, if it declares
the template again, to its tag. -/
theorem retag_run_item (item : Item) :
    (table.retag name tag).run item.operations =
      (table.run (item.operationsAfter name)).retag name
        (((item.templateRule? name).bind Rule.typeTag).or tag) := by
  have hfree : ∀ op ∈ item.operationsAfter name, op.tag? .template name = none :=
    fun op hop => Item.tag?_operationsAfter hop
  rw [Item.operationsAfter] at hfree ⊢
  cases hrule : item.templateRule? name with
  | none =>
      rw [hrule] at hfree
      exact retag_run h hfree tag
  | some rule =>
      rw [hrule] at hfree
      obtain ⟨rfl, hparameters, rfl⟩ := Item.eq_rule_of_templateRule? hrule
      have hdefined : table.definesRule rule = true := by
        obtain ⟨names, hparameters⟩ := hparameters
        rw [definesRule, hparameters]
        exact h
      have hdefining : table.apply rule.defining = table := by
        rw [← defineRule_eq_apply, defineRule_of_defines hdefined]
      rw [Item.operations_rule, run_cons, run_append, retag_apply h (rule.tag?_defining _ _),
        hdefining, run_tagging _ hparameters, retag_retag, retag_run h hfree]
      rfl

/-- Behind the declaration of a template, items amount to what is left of them and to the last tag
that they have for it. -/
theorem retag_run_items (items : List Item) :
    (table.retag name tag).run (items.flatMap Item.operations) =
      (table.run (items.flatMap (Item.operationsAfter name))).retag name
        ((lastTag? (items.filterMap (·.templateRule? name))).or tag) := by
  induction items generalizing table tag with
  | nil => rfl
  | cons item items ih =>
      rw [List.flatMap_cons, List.flatMap_cons, run_append, run_append, retag_run_item h,
        ih (defines_run h _), ← Option.or_assoc, List.filterMap_cons]
      cases item.templateRule? name with
      | none => rw [Option.bind_none, Option.or_none]
      | some rule => rw [lastTag?_cons, Option.bind_some]

end Declared

/-- The declarations of a template in a list of items amount to the first one, to the bodies of the
others, and to the last of their tags. -/
theorem run_operations_eq_retag {name : String} {items : List Item} {first : Rule}
    {later : List Rule} (h : items.filterMap (·.templateRule? name) = first :: later)
    (table : Table) :
    ∃ untagged : Table,
      table.run (declaredOnce name items) = untagged.retag name first.typeTag ∧
      table.run (items.flatMap Item.operations) =
        untagged.retag name ((lastTag? later).or first.typeTag) := by
  induction items generalizing table with
  | nil => cases h
  | cons item items ih =>
      rw [declaredOnce, List.flatMap_cons, run_append, run_append]
      cases hrule : item.templateRule? name with
      | none =>
          rw [List.filterMap_cons, hrule] at h
          exact ih h (table.run item.operations)
      | some rule =>
          rw [List.filterMap_cons, hrule] at h
          obtain ⟨rfl, rfl⟩ := List.cons.inj h
          obtain ⟨rfl, hparameters, rfl⟩ := Item.eq_rule_of_templateRule? hrule
          have hdefined := table.defines_apply_defining hparameters
          have hfirst : table.run (Item.rule rule).operations =
              ((table.apply rule.defining).run rule.bodyOperations).retag rule.name.value
                rule.typeTag := by
            rw [Item.operations_rule, run_cons, run_append, run_tagging _ hparameters,
              retag_run hdefined fun op hop => Rule.tag?_bodyOperations hop _ _]
          have hbodies : ∀ op ∈ items.flatMap (Item.operationsAfter rule.name.value),
              op.tag? .template rule.name.value = none := by
            intro op hop
            obtain ⟨later, -, hop⟩ := List.mem_flatMap.mp hop
            exact Item.tag?_operationsAfter hop
          refine ⟨((table.apply rule.defining).run rule.bodyOperations).run
            (items.flatMap (Item.operationsAfter rule.name.value)), ?_, ?_⟩
          · rw [hfirst, Option.isSome_some, if_pos rfl, retag_run (defines_run hdefined _) hbodies]
          · rw [hfirst, retag_run_items (defines_run hdefined _)]

end Table

/-! ### Declarations in a text -/

theorem templateDefinition?_flatMap_operations (name : String) (items : List Item) :
    (items.flatMap Item.operations).findSome? (·.templateDefinition? name) =
      (items.filterMap (·.templateRule? name)).head?.map fun rule =>
        (rule.parameters.getD [], rule.definition) := by
  induction items with
  | nil => rfl
  | cons item items ih =>
      rw [List.flatMap_cons, List.findSome?_append, item.templateDefinition?_operations, ih,
        List.filterMap_cons]
      cases item.templateRule? name <;> rfl

theorem tag?_flatMap_operations (name : String) (items : List Item) :
    (items.flatMap Item.operations).filterMap (·.tag? .template name) =
      (items.filterMap (·.templateRule? name)).filterMap Rule.typeTag := by
  induction items with
  | nil => rfl
  | cons item items ih =>
      rw [List.flatMap_cons, List.filterMap_append, item.tag?_operations, ih, List.filterMap_cons]
      cases item.templateRule? name with
      | none => rfl
      | some rule =>
          simp only [Option.bind_some, List.filterMap_cons]
          cases rule.typeTag <;> rfl

/-- What a history makes of a template whose first declaration among the items is given. -/
theorem template_after_declarations {name : String} {items : List Item} {first : Rule}
    {later : List Rule} (h : items.filterMap (·.templateRule? name) = first :: later) :
    ∃ s, (Table.empty.run (items.flatMap Item.operations)).template? name = some s ∧
      s.definition = some first.definition ∧ s.parameters = first.parameters ∧
      s.typeTag = (lastTag? later).or first.typeTag := by
  obtain ⟨item, -, hrule⟩ := List.mem_filterMap.mp (h ▸ List.mem_cons_self : first ∈ _)
  obtain ⟨-, ⟨names, hparameters⟩, -⟩ := Item.eq_rule_of_templateRule? hrule
  have hafter := Table.template_after (items.flatMap Item.operations) name
  rw [templateDefinition?_flatMap_operations, tag?_flatMap_operations, h] at hafter
  have hmem : name ∈ Table.Side.template.names (items.flatMap Item.operations) := by
    by_contra hnew
    rw [Table.Side.template.after_of_not_mem hnew] at hafter
    cases congrArg Symbol.definition hafter
  refine ⟨_, (Table.get?_run .template _ name).trans (if_pos hmem), ?_, ?_, ?_⟩
  · rw [hafter]
    rfl
  · rw [hafter, hparameters]
    simp [hparameters]
  · rw [hafter, ← lastTag?_cons]
    rfl

/-- A template that a text declares is in its table, with the place and the parameters of the first
declaration.  The table is the one that the text would have with that declaration and, for the other
ones, their bodies alone, but for the tag of the template: if one of the others has a tag, the last
of them counts.  So the others are ignored, up to their bodies, just if that tag is the tag of the
first declaration or none of them has one. -/
theorem redeclaration_ignored_iff (text name : String) {first : Rule} {later : List Rule}
    (h : (itemsOf text).filterMap (·.templateRule? name) = first :: later) :
    ∃ g s, Grammar.ofText text = .ok g ∧ g.table.template? name = some s ∧
      s.definition = some first.definition ∧ s.parameters = first.parameters ∧
      g.table = (Table.empty.run (declaredOnce name (itemsOf text))).retag name (lastTag? later) ∧
      ((s.typeTag = first.typeTag ∧
          g.table = Table.empty.run (declaredOnce name (itemsOf text))) ↔
        ∀ tag, lastTag? later = some tag → first.typeTag = some tag) := by
  obtain ⟨untagged, honce, hall⟩ := Table.run_operations_eq_retag h .empty
  obtain ⟨s, hs, hdefinition, hparameters, htag⟩ := template_after_declarations h
  refine ⟨_, s, ofText_eq_run text, hs, hdefinition, hparameters, ?_, ?_⟩
  · rw [honce, Table.retag_retag]
    exact hall
  constructor
  · rintro ⟨hkept, -⟩ tag hlast
    rw [← hkept, htag, hlast, Option.some_or]
  · intro hkept
    have hsame : (lastTag? later).or first.typeTag = first.typeTag := by
      cases hlast : lastTag? later with
      | none => exact Option.none_or
      | some tag => rw [Option.some_or, hkept tag hlast]
    refine ⟨htag.trans hsame, ?_⟩
    rw [honce, ← hsame]
    exact hall

/-- A template with three declarations, a call between them, and a tag on the first and the last. -/
def thriceDeclared : String :=
  "%rule n(x) <a> : x ;\n%%\nr : n(c) ;\n%rule n(y, z) : d y ;\n%rule n() <a>"

theorem thriceDeclared_ignored :
    ∃ first later g s,
      (itemsOf thriceDeclared).filterMap (·.templateRule? "n") = first :: later ∧
      later.length = 2 ∧ first.typeTag = some "a" ∧
      Grammar.ofText thriceDeclared = .ok g ∧ g.table.template? "n" = some s ∧
      s.definition = some first.definition ∧ s.parameters = some ["x"] ∧ s.typeTag = some "a" ∧
      g.table = Table.empty.run (declaredOnce "n" (itemsOf thriceDeclared)) := by
  have hdeclared : ((itemsOf thriceDeclared).filterMap (·.templateRule? "n")).map
      (fun rule => (rule.typeTag, rule.parameters)) =
        [(some "a", some ["x"]), (none, some ["y", "z"]), (some "a", some [])] := by decide +kernel
  obtain ⟨first, later, hrules, hfirst, hlater⟩ := List.map_eq_cons_iff.mp hdeclared
  obtain ⟨htag, hparameters⟩ := Prod.mk.inj hfirst
  have hlast : lastTag? later = some "a" := by
    have htags := congrArg (fun l => (l.filterMap Prod.fst).getLast?) hlater
    rwa [List.filterMap_map] at htags
  obtain ⟨g, s, hg, hs, hdefinition, hkept, -, hiff⟩ :=
    redeclaration_ignored_iff thriceDeclared "n" hrules
  obtain ⟨hsame, htable⟩ := hiff.mpr fun tag ht => by rw [htag, ← hlast, ht]
  exact ⟨first, later, g, s, hrules, by simpa using congrArg List.length hlater, htag, hg, hs,
    hdefinition, hkept.trans hparameters, hsame.trans htag, htable⟩

/-- The tag of a second declaration replaces the tag of the first one. -/
theorem redeclaration_retags :
    ¬∀ (text name : String) (first : Rule) (later : List Rule) (g : Grammar) (s : Symbol),
      (itemsOf text).filterMap (·.templateRule? name) = first :: later →
        Grammar.ofText text = .ok g → g.table.template? name = some s →
          s.typeTag = first.typeTag := by
  intro h
  have htags : ((itemsOf "%rule n(x) <a> : ;\n%rule n(x) <b> : ;").filterMap
      (·.templateRule? "n")).map Rule.typeTag = [some "a", some "b"] := by decide +kernel
  obtain ⟨first, later, hrules, hfirst, hlater⟩ := List.map_eq_cons_iff.mp htags
  obtain ⟨second, _, rfl, hsecond, hnil⟩ := List.map_eq_cons_iff.mp hlater
  obtain rfl := List.map_eq_nil_iff.mp hnil
  obtain ⟨s, hs, -, -, htag⟩ := template_after_declarations hrules
  have hsame := h _ "n" first [second] _ s hrules (ofText_eq_run _) hs
  rw [htag, lastTag?_cons, hsecond, hfirst] at hsame
  exact absurd hsame (by decide)

end GrammarLens
