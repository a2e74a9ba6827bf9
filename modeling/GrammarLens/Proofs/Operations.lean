import GrammarLens.Proofs.Placement
import GrammarLens.Symbol.OfItems
import Mathlib.Data.List.Perm.Subperm

/-! # Recording as a run of table operations

What an item says is a short list of table operations, `Item.operations`, which depends on the item
alone: whether a rule counts as the definition of its name is left to the table.  For items whose
tokens are placed, recording them is running their operations in order and never fails
(`recordItems_eq_run`).  So statements about tables can be proved operation by operation, and
statements about reading can stop at the list of items.

An operation changes one symbol.  What can be read off the symbols one by one therefore grows by no
more than what the operations bring (`run_subperm`). -/

namespace GrammarLens

/-- A change of a table. -/
inductive Table.Operation where
  | define (name : String) (kind : Symbol.Kind) (definition : Definition)
  | defineTemplate (name : String) (parameters : List String) (definition : Definition)
  | refer (name : String) (span : Span)
  | call (name : String) (call : Call)
  | tagPlain (name tag : String)
  | tagTemplate (name tag : String)
  | setStart (name : String)
deriving DecidableEq, Repr

namespace Table

/-- The table after one operation. -/
def apply (table : Table) : Operation → Table
  | .define name kind definition => table.define name kind definition
  | .defineTemplate name parameters definition => table.defineTemplate name parameters definition
  | .refer name span => table.refer name span
  | .call name call => table.call name call
  | .tagPlain name tag => table.tagPlain name tag
  | .tagTemplate name tag => table.tagTemplate name tag
  | .setStart name => table.setStart (some name)

/-- The table after some operations. -/
def run (table : Table) (operations : List Operation) : Table := operations.foldl apply table

@[simp] theorem run_nil (table : Table) : table.run [] = table := rfl

@[simp] theorem run_cons (table : Table) (op : Operation) (ops : List Operation) :
    table.run (op :: ops) = (table.apply op).run ops := rfl

@[simp] theorem run_append (table : Table) (ops ops' : List Operation) :
    table.run (ops ++ ops') = (table.run ops).run ops' := List.foldl_append

end Table

/-! ### What an item is made of -/

/-- The tokens that a use names: its own, and the last one of a call. -/
def Use.tokens : Use → List Token
  | .name t => [t]
  | .precedence t => [t]
  | .call t last _ => [t, last]

/-- The uses in a rule. -/
def Rule.uses (rule : Rule) : List Use := rule.body.elim [] Body.uses

/-- The last token of a rule; a rule without a body ends with its name. -/
def Rule.last (rule : Rule) : Token := rule.body.elim rule.name Body.last

/-- The tokens that an item names. -/
def Item.tokens : Item → List Token
  | .symbol t _ _ => [t]
  | .start t => [t]
  | .rule r => r.first :: r.name :: r.last :: r.uses.flatMap Use.tokens

/-- The operations of a use, under the placeholders of the rule around it. -/
def Use.operations (placeholders : List String) : Use → List Table.Operation
  | .name t => if placeholders.contains t.value then [] else [.refer t.value t.place]
  | .precedence t => [.refer t.value t.place]
  | .call t last arguments => [.call t.value ⟨t.through last, arguments⟩]

/-- Where a rule is defined.  Without a body it is no larger than its name. -/
def Rule.definition (rule : Rule) : Definition :=
  ⟨rule.body.elim rule.name.place fun body => rule.first.through body.last, rule.name.place⟩

/-- The operation that defines a rule. -/
def Rule.defining (rule : Rule) : Table.Operation :=
  match rule.parameters with
  | none => .define rule.name.value .rule rule.definition
  | some names => .defineTemplate rule.name.value names rule.definition

/-- The operation that gives a rule its type tag, if it has one. -/
def Rule.tagging (rule : Rule) : List Table.Operation :=
  match rule.typeTag, rule.parameters with
  | none, _ => []
  | some tag, none => [.tagPlain rule.name.value tag]
  | some tag, some _ => [.tagTemplate rule.name.value tag]

/-- The operations of an item. -/
def Item.operations : Item → List Table.Operation
  | .symbol t kind typeTag =>
    .define t.value kind ⟨t.place, t.place⟩ :: typeTag.toList.map (.tagPlain t.value)
  | .start t => [.define t.value .start ⟨t.place, t.place⟩, .setStart t.value]
  | .rule r =>
    r.defining :: (r.tagging ++ r.uses.flatMap (Use.operations (r.parameters.getD [])))

/-! ### Placed uses -/

/-- The operation that records a placed use. -/
def PlacedUse.operation : PlacedUse → Table.Operation
  | .reference name span => .refer name span
  | .call name c => .call name c

theorem record_eq_apply (table : Table) (use : PlacedUse) :
    table.record use = table.apply use.operation := by cases use <;> rfl

theorem foldl_record (table : Table) (uses : List PlacedUse) :
    uses.foldl Table.record table = table.run (uses.map PlacedUse.operation) := by
  induction uses generalizing table with
  | nil => rfl
  | cons use uses ih => rw [List.foldl_cons, ih, record_eq_apply]; rfl

theorem placed?_eq_ok (placeholders : List String) {use : Use} (h : ∀ t ∈ use.tokens, t.Placed) :
    ∃ placed, use.placed? placeholders = .ok placed ∧
      placed.toList.map PlacedUse.operation = use.operations placeholders := by
  cases use with
  | name t =>
      by_cases hp : placeholders.contains t.value = true
      · refine ⟨none, ?_, ?_⟩
        · rw [Use.placed?, if_pos hp]
        · rw [Use.operations, if_pos hp]; rfl
      · refine ⟨some (.reference t.value t.place), ?_, ?_⟩
        · rw [Use.placed?, if_neg hp, Token.span_eq_place (h t (by simp [Use.tokens]))]; rfl
        · rw [Use.operations, if_neg hp]; rfl
  | precedence t =>
      refine ⟨some (.reference t.value t.place), ?_, rfl⟩
      rw [Use.placed?, Token.span_eq_place (h t (by simp [Use.tokens]))]; rfl
  | call t last arguments =>
      refine ⟨some (.call t.value ⟨t.through last, arguments⟩), ?_, rfl⟩
      rw [Use.placed?, Token.extent_eq_through (h t (by simp [Use.tokens]))
        (h last (by simp [Use.tokens]))]; rfl

theorem placedUses_eq_ok (placeholders : List String) {uses : List Use}
    (h : ∀ t ∈ uses.flatMap Use.tokens, t.Placed) :
    ∃ placed, placedUses placeholders uses = .ok placed ∧
      placed.map PlacedUse.operation = uses.flatMap (Use.operations placeholders) := by
  induction uses with
  | nil => exact ⟨[], rfl, rfl⟩
  | cons use uses ih =>
      rw [List.flatMap_cons, List.forall_mem_append] at h
      obtain ⟨first, h1, e1⟩ := placed?_eq_ok placeholders h.1
      obtain ⟨more, h2, e2⟩ := ih h.2
      refine ⟨first.toList ++ more, ?_, ?_⟩
      · rw [placedUses, h1, h2]; rfl
      · rw [List.map_append, e1, e2, List.flatMap_cons]

/-! ### Definitions that come too late -/

namespace SymbolList

/-- A change that leaves defined symbols alone does nothing to a symbol that is defined. -/
theorem alter_of_defines {symbols : SymbolList} {blank : Symbol} {change : Symbol → Symbol}
    (hc : ∀ s, s.isDefined = true → change s = s) (h : defines symbols blank.name = true) :
    alter blank change symbols = symbols := by
  induction symbols with
  | nil => cases h
  | cons s symbols ih =>
      unfold alter
      by_cases hs : s.name = blank.name
      · rw [if_pos hs, hc s (by simpa [defines, get?, hs] using h)]
      · rw [if_neg hs, ih (by simpa [defines, get?, hs] using h)]

end SymbolList

namespace Table

theorem defineRule_of_defines {table : Table} {rule : Rule} (h : table.definesRule rule = true)
    (d : Definition) : table.defineRule rule d = table := by
  unfold definesRule at h
  unfold defineRule
  split at h
  · simp only [define]
    rw [SymbolList.alter_of_defines _ h]
    intro s hs
    rw [if_pos hs]
  · simp only [defineTemplate]
    rw [SymbolList.alter_of_defines _ h]
    intro s hs
    rw [if_pos hs]

theorem defineRule_eq_apply (table : Table) (rule : Rule) :
    table.defineRule rule rule.definition = table.apply rule.defining := by
  unfold defineRule Rule.defining
  cases rule.parameters <;> rfl

theorem tagRule_eq_run (table : Table) (rule : Rule) :
    table.tagRule rule = table.run rule.tagging := by
  unfold tagRule Rule.tagging
  cases rule.typeTag <;> cases rule.parameters <;> rfl

/-! ### Recording items -/

/-- The span that a rule is given matters only if the rule defines its name. -/
theorem placeRule_eq_ok {rule : Rule} (h : ∀ t ∈ (Item.rule rule).tokens, t.Placed)
    (isDefined : Bool) :
    ∃ uses span, placeRule rule isDefined rule.name.place = .ok (uses, span) ∧
      uses.map PlacedUse.operation =
        rule.uses.flatMap (Use.operations (rule.parameters.getD [])) ∧
      (isDefined = false → span = rule.definition.span) := by
  unfold placeRule Rule.definition Rule.uses
  simp only [Item.tokens, Rule.uses, Rule.last] at h
  cases hb : rule.body with
  | none => exact ⟨[], rule.name.place, rfl, rfl, fun _ => rfl⟩
  | some body =>
      rw [hb] at h
      simp only [Option.elim, List.forall_mem_cons] at h
      obtain ⟨hfirst, -, hlast, huses⟩ := h
      obtain ⟨placed, hp, ho⟩ := placedUses_eq_ok (rule.parameters.getD []) huses
      cases isDefined with
      | true =>
          refine ⟨placed, rule.name.place, ?_, ho, fun h => absurd h (by decide)⟩
          simp only [hp]; rfl
      | false =>
          refine ⟨placed, rule.first.through body.last, ?_, ho, fun _ => rfl⟩
          simp only [hp, Token.extent_eq_through hfirst hlast]; rfl

theorem recordRule_eq_run (table : Table) {rule : Rule}
    (h : ∀ t ∈ (Item.rule rule).tokens, t.Placed) :
    table.recordRule rule = .ok (table.run (Item.rule rule).operations) := by
  obtain ⟨uses, span, hp, ho, hs⟩ := placeRule_eq_ok h (table.definesRule rule)
  have hname : rule.name.span = .ok rule.name.place :=
    Token.span_eq_place (h rule.name (by simp [Item.tokens]))
  have hdef : table.defineRule rule ⟨span, rule.name.place⟩ = table.apply rule.defining := by
    rw [← defineRule_eq_apply]
    cases hd : table.definesRule rule with
    | true => rw [defineRule_of_defines hd, defineRule_of_defines hd]
    | false => rw [hs hd]; rfl
  rw [recordRule, hname]
  simp only [bind, Except.bind, hp, hdef, tagRule_eq_run, foldl_record, ho, Item.operations,
    run_cons, run_append]
  rfl

theorem recordItem_eq_run (table : Table) {item : Item} (h : ∀ t ∈ item.tokens, t.Placed) :
    table.recordItem item = .ok (table.run item.operations) := by
  cases item with
  | symbol t kind typeTag =>
      have ht : t.span = .ok t.place := Token.span_eq_place (h t (by simp [Item.tokens]))
      simp only [recordItem, ht, bind, Except.bind, Item.operations]
      cases typeTag <;> rfl
  | start t =>
      have ht : t.span = .ok t.place := Token.span_eq_place (h t (by simp [Item.tokens]))
      simp only [recordItem, ht, bind, Except.bind, Item.operations]
      rfl
  | rule rule => exact recordRule_eq_run table h

/-- Recording items with placed tokens is running their operations. -/
theorem recordItems_eq_run (table : Table) {items : List Item}
    (h : ∀ t ∈ items.flatMap Item.tokens, t.Placed) :
    table.recordItems items = .ok (table.run (items.flatMap Item.operations)) := by
  induction items generalizing table with
  | nil => rfl
  | cons item items ih =>
      rw [List.flatMap_cons, List.forall_mem_append] at h
      rw [recordItems, recordItem_eq_run table h.1, List.flatMap_cons, run_append]
      exact ih _ h.2

/-! ### How tables grow -/

namespace Operation

/-- The symbol that an operation changes, as it is before its first mention. -/
def target : Operation → Option Symbol
  | .define name _ _ => some (blankPlain name)
  | .defineTemplate name _ _ => some (blankTemplate name)
  | .refer name _ => some (blankPlain name)
  | .call name _ => some (blankTemplate name)
  | .tagPlain name _ => some (blankPlain name)
  | .tagTemplate name _ => some (blankTemplate name)
  | .setStart _ => none

/-- What an operation makes of the symbol that it changes. -/
def change : Operation → Symbol → Symbol
  | .define _ kind definition, s =>
    if s.isDefined then s else { s with kind := kind, definition := some definition }
  | .defineTemplate _ parameters definition, s =>
    if s.isDefined then s
    else { s with parameters := some parameters, definition := some definition }
  | .refer _ span, s => { s with references := s.references ++ [span] }
  | .call _ c, s => { s with calls := s.calls ++ [c] }
  | .tagPlain _ tag, s => { s with typeTag := some tag }
  | .tagTemplate _ tag, s => { s with typeTag := some tag }
  | .setStart _, s => s

end Operation

/-- An operation alters its target, either among the templates or among the plain symbols. -/
theorem symbols_apply (table : Table) (op : Operation) :
    (op.target = none ∧ (table.apply op).symbols = table.symbols) ∨
      ∃ blank, op.target = some blank ∧
        ((table.apply op).symbols =
            table.templates.alter blank op.change ++ table.plain ∨
          (table.apply op).symbols =
            table.templates ++ table.plain.alter blank op.change) := by
  cases op with
  | define | refer | tagPlain => exact Or.inr ⟨_, rfl, Or.inr rfl⟩
  | defineTemplate | call | tagTemplate => exact Or.inr ⟨_, rfl, Or.inl rfl⟩
  | setStart => exact Or.inl ⟨rfl, rfl⟩

variable {α : Type}

/-- Each operation adds no more than `news` to what `view` shows of its target. -/
def Grows (view : Symbol → List α) (news : Operation → List α) : Prop :=
  ∀ op : Operation, ∀ blank ∈ op.target, view blank = [] ∧
    ∀ s : Symbol, s.name = blank.name → (view (op.change s)).Subperm (news op ++ view s)

theorem alter_subperm {view : Symbol → List α} {news : List α} {blank : Symbol}
    {change : Symbol → Symbol} (hb : view blank = [])
    (h : ∀ s : Symbol, s.name = blank.name → (view (change s)).Subperm (news ++ view s))
    (symbols : SymbolList) :
    ((symbols.alter blank change).flatMap view).Subperm (news ++ symbols.flatMap view) := by
  induction symbols with
  | nil =>
      have := h blank rfl
      rw [hb] at this
      simpa [SymbolList.alter] using this
  | cons s symbols ih =>
      unfold SymbolList.alter
      by_cases hs : s.name = blank.name
      · rw [if_pos hs, List.flatMap_cons, List.flatMap_cons, ← List.append_assoc]
        exact (List.subperm_append_right _).mpr (h s hs)
      · rw [if_neg hs, List.flatMap_cons, List.flatMap_cons]
        refine ((List.subperm_append_left (view s)).mpr ih).trans (List.Perm.subperm ?_)
        rw [← List.append_assoc, ← List.append_assoc]
        exact List.perm_append_comm.append_right _

theorem apply_subperm {view : Symbol → List α} {news : Operation → List α} (h : Grows view news)
    (table : Table) (op : Operation) :
    ((table.apply op).symbols.flatMap view).Subperm (news op ++ table.symbols.flatMap view) := by
  rcases table.symbols_apply op with ⟨_, he⟩ | ⟨blank, ht, he | he⟩
  · rw [he]
    exact (List.sublist_append_right _ _).subperm
  · obtain ⟨hb, hc⟩ := h op blank ht
    rw [he, symbols, List.flatMap_append, List.flatMap_append, ← List.append_assoc]
    exact (List.subperm_append_right _).mpr (alter_subperm hb hc table.templates)
  · obtain ⟨hb, hc⟩ := h op blank ht
    rw [he, symbols, List.flatMap_append, List.flatMap_append]
    refine ((List.subperm_append_left _).mpr (alter_subperm hb hc table.plain)).trans
      (List.Perm.subperm ?_)
    rw [← List.append_assoc, ← List.append_assoc]
    exact List.perm_append_comm.append_right _

/-- A view of a table shows no more than what the operations that made the table brought. -/
theorem run_subperm {view : Symbol → List α} {news : Operation → List α} (h : Grows view news)
    (table : Table) (ops : List Operation) :
    ((table.run ops).symbols.flatMap view).Subperm
      (ops.flatMap news ++ table.symbols.flatMap view) := by
  induction ops generalizing table with
  | nil => exact List.Subperm.refl _
  | cons op ops ih =>
      rw [run_cons, List.flatMap_cons]
      refine (ih (table.apply op)).trans ?_
      refine ((List.subperm_append_left _).mpr (apply_subperm h table op)).trans
        (List.Perm.subperm ?_)
      rw [← List.append_assoc]
      exact List.perm_append_comm.append_right _

end Table

end GrammarLens
