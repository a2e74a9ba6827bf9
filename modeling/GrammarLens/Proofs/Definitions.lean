import GrammarLens.Editor
import GrammarLens.Proofs.Consumption
import GrammarLens.Proofs.Scanning

/-! # Definitions in a symbol table

Each definition in a table comes from one item, and no two from the same one.  Items are read from
stretches of tokens that follow each other, and the tokens of a text stand in order.  So the
definitions of a text lie apart, and the name in a definition lies within the definition
(`definitions_apart_and_nested`).  An outline shows just these spans. -/

namespace GrammarLens

/-- One of the definitions ends before the other starts, or just there. -/
def Definition.Apart (d e : Definition) : Prop :=
  d.span.stop ≤ e.span.start ∨ e.span.stop ≤ d.span.start

theorem Definition.Apart.symm {d e : Definition} (h : d.Apart e) : e.Apart d := Or.symm h

/-- All definitions in a table. -/
def Table.definitions (table : Table) : List Definition :=
  table.symbols.flatMap (·.definition.toList)

/-! ### Definitions and items -/

/-- The definitions that an operation brings. -/
def Table.Operation.definitions : Table.Operation → List Definition
  | .define _ _ d => [d]
  | .defineTemplate _ _ d => [d]
  | _ => []

theorem Symbol.definition_subperm {s t : Symbol} {d : Definition} (ht : t.definition = some d) :
    (if s.isDefined then s else t).definition.toList.Subperm ([d] ++ s.definition.toList) := by
  split
  · exact (List.sublist_append_right _ _).subperm
  · rw [ht]
    exact (List.sublist_append_left [d] _).subperm

theorem definitions_grow :
    Table.Grows (fun s => s.definition.toList) Table.Operation.definitions := by
  intro op blank hb
  cases op with
  | define name kind d =>
      cases hb
      exact ⟨rfl, fun s _ => Symbol.definition_subperm
        (t := { s with kind := kind, definition := some d }) rfl⟩
  | defineTemplate name parameters d =>
      cases hb
      exact ⟨rfl, fun s _ => Symbol.definition_subperm
        (t := { s with parameters := some parameters, definition := some d }) rfl⟩
  | refer | call | tagPlain | tagTemplate =>
      cases hb
      exact ⟨rfl, fun s _ => List.Subperm.refl _⟩
  | setStart => cases hb

/-- Where an item defines its name. -/
def Item.definition : Item → Definition
  | .symbol t _ _ => ⟨t.place, t.place⟩
  | .start t => ⟨t.place, t.place⟩
  | .rule r => r.definition

theorem Use.operations_definitions (placeholders : List String) (use : Use) :
    (use.operations placeholders).flatMap Table.Operation.definitions = [] := by
  cases use with
  | name t =>
      simp only [Use.operations]
      split <;> rfl
  | precedence t => rfl
  | call t last names => rfl

theorem Item.operations_definitions (item : Item) :
    item.operations.flatMap Table.Operation.definitions = [item.definition] := by
  cases item with
  | symbol t kind tag => cases tag <;> rfl
  | start t => rfl
  | rule r =>
      have hdef : r.defining.definitions = [r.definition] := by
        unfold Rule.defining
        split <;> rfl
      have htag : r.tagging.flatMap Table.Operation.definitions = [] := by
        unfold Rule.tagging
        split <;> rfl
      have huses : (r.uses.flatMap (Use.operations (r.parameters.getD []))).flatMap
          Table.Operation.definitions = [] := by
        rw [List.flatMap_assoc]
        simp only [Use.operations_definitions, List.flatMap_eq_nil_iff, implies_true]
      rw [Item.operations, List.flatMap_cons, List.flatMap_append, hdef, htag, huses]
      rfl

theorem operations_definitions_items (items : List Item) :
    (items.flatMap Item.operations).flatMap Table.Operation.definitions =
      items.map Item.definition := by
  induction items with
  | nil => rfl
  | cons item items ih =>
      rw [List.flatMap_cons, List.flatMap_append, item.operations_definitions, ih, List.map_cons]
      rfl

/-- Each definition in a table is that of an item, and no two of the same item. -/
theorem definitions_run_subperm (items : List Item) :
    (Table.empty.run (items.flatMap Item.operations)).definitions.Subperm
      (items.map Item.definition) := by
  have h := Table.run_subperm definitions_grow Table.empty (items.flatMap Item.operations)
  have hempty : Table.empty.symbols.flatMap (fun s => s.definition.toList) = [] := rfl
  rw [hempty, List.append_nil, operations_definitions_items] at h
  exact h

/-! ### Where the definition of an item lies -/

theorem Item.definition_nameSpan (item : Item) : item.definition.nameSpan = item.name.place := by
  cases item <;> rfl

theorem Item.definition_span (item : Item) :
    item.definition.span = item.first.through item.last := by
  cases item with
  | symbol t kind tag => exact (Token.through_self t).symm
  | start t => exact (Token.through_self t).symm
  | rule r =>
      simp only [Item.definition, Rule.definition, Item.first, Item.last, Rule.last]
      cases r.body with
      | none => exact (Token.through_self r.name).symm
      | some body => rfl

/-- In a list of tokens that stand in order, a token that comes first starts first and stops
first. -/
theorem InOrder.start_le {ts : List Token} {a b : Token} (h : InOrder ts a b)
    (hp : ts.Pairwise Token.Before) : a.start ≤ b.start ∧ a.stop ≤ b.stop := by
  rcases h.eq_or_of_pairwise hp with rfl | hb
  · exact ⟨le_refl _, le_refl _⟩
  · exact ⟨le_trans a.start_le_stop hb, le_trans hb b.start_le_stop⟩

namespace Item.From

variable {taken : List Token} {item : Item}

theorem first_start_le (h : item.From taken) (hp : taken.Pairwise Token.Before) :
    item.first.start ≤ item.last.stop :=
  le_trans (le_trans (h.head.start_le hp).1 item.name.start_le_stop) (h.tail.start_le hp).2

/-- The name in a definition lies within the definition. -/
theorem nested (h : item.From taken) (hp : taken.Pairwise Token.Before) :
    item.definition.span.start ≤ item.definition.nameSpan.start ∧
      item.definition.nameSpan.stop ≤ item.definition.span.stop := by
  rw [item.definition_span, item.definition_nameSpan, Token.through_start,
    Token.through_stop (h.first_start_le hp)]
  exact ⟨(h.head.start_le hp).1, (h.tail.start_le hp).2⟩

end Item.From

theorem Reads.definitions_apart {ts : List Token} {items : List Item} (h : Reads ts items)
    (hp : ts.Pairwise Token.Before) : (items.map Item.definition).Pairwise Definition.Apart := by
  rw [List.pairwise_map]
  refine (h.pairwise hp).imp_of_mem ?_
  intro i j hi _ hij
  obtain ⟨taken, hs, hf⟩ := h.from_mem i hi
  refine Or.inl ?_
  rw [i.definition_span, j.definition_span, Token.through_start,
    Token.through_stop (hf.first_start_le (hp.sublist hs))]
  exact hij

theorem Reads.definitions_nested {ts : List Token} {items : List Item} (h : Reads ts items)
    (hp : ts.Pairwise Token.Before) :
    ∀ d ∈ items.map Item.definition,
      d.span.start ≤ d.nameSpan.start ∧ d.nameSpan.stop ≤ d.span.stop := by
  intro d hd
  obtain ⟨i, hi, rfl⟩ := List.mem_map.mp hd
  obtain ⟨taken, hs, hf⟩ := h.from_mem i hi
  exact hf.nested (hp.sublist hs)

/-- A symmetric relation between all elements of a list holds between those of any part of it. -/
theorem pairwise_of_subperm {α : Type} {R : α → α → Prop} {l l' : List α}
    (hR : ∀ {a b}, R a b → R b a) (h : l.Subperm l') (hp : l'.Pairwise R) : l.Pairwise R := by
  obtain ⟨m, hm, hs⟩ := h
  exact (hm.pairwise_iff hR).mp (hp.sublist hs)

/-! ### The table of a text -/

/-- The table of a text is the run of what its items say. -/
theorem ofText_eq_run (text : String) :
    Grammar.ofText text =
      .ok ⟨Table.empty.run ((readItems .declarations (scan text)).1.flatMap Item.operations),
        (readItems .declarations (scan text)).2⟩ :=
  ofTokens_eq_run (placed_scan text)

theorem words_isEnd (text : String) :
    ∀ t ∈ scanLines 0 (splitLines text.toList), t.isEnd = false := by
  intro t ht
  obtain ⟨line, -, hon⟩ := scanLines_faithful text t ht
  exact Token.isEnd_of_kind rfl hon.kind_ne

/-- Both ends of the definition of an item, and of the name in it, are positions of the text. -/
theorem Reads.definitions_held {text : String} {items : List Item} (h : Reads (scan text) items) :
    ∀ d ∈ items.map Item.definition,
      ((Source.ofText text).Holds d.span.start ∧ (Source.ofText text).Holds d.span.stop) ∧
        (Source.ofText text).Holds d.nameSpan.start ∧
        (Source.ofText text).Holds d.nameSpan.stop := by
  intro d hd
  obtain ⟨i, hi, rfl⟩ := List.mem_map.mp hd
  obtain ⟨taken, hs, hf⟩ := h.from_mem i hi
  have hname : i.name ∈ taken := hf.named.subset (by simp [Item.named])
  rw [i.definition_span, i.definition_nameSpan]
  exact ⟨holds_through (hs.subset hf.first_mem) (hs.subset hf.last_mem),
    holds_of_mem_scan (hs.subset hname)⟩

/-- What is known of all definitions of items is known of those in their table. -/
theorem definition_mem_items {items : List Item} {s : Symbol} {d : Definition}
    (hs : s ∈ (Table.empty.run (items.flatMap Item.operations)).symbols)
    (hd : s.definition = some d) : d ∈ items.map Item.definition := by
  refine (definitions_run_subperm items).subset ?_
  exact List.mem_flatMap.mpr ⟨s, hs, by simp [hd]⟩

/-- The definitions of any two symbols lie apart. -/
theorem symbols_apart {ts : List Token} {items : List Item} (h : Reads ts items)
    (hp : ts.Pairwise Token.Before) :
    (Table.empty.run (items.flatMap Item.operations)).symbols.Pairwise fun a b =>
      ∀ d ∈ a.definition.toList, ∀ e ∈ b.definition.toList, d.Apart e :=
  (List.pairwise_flatMap.mp (pairwise_of_subperm Definition.Apart.symm
    (definitions_run_subperm items) (h.definitions_apart hp))).2

/-- A relation that holds between the elements of a list in order, and either way round, holds
between any two of them at different indices. -/
theorem get_of_pairwise_symm {α : Type} {R : α → α → Prop} {l : List α}
    (hR : ∀ {a b}, R a b → R b a) (hp : l.Pairwise R) {i j : Fin l.length} (h : i ≠ j) :
    R (l.get i) (l.get j) := by
  rcases Nat.lt_or_gt_of_ne (fun h' => h (Fin.ext h')) with hij | hij
  · exact List.pairwise_iff_getElem.mp hp i j i.isLt j.isLt hij
  · exact hR (List.pairwise_iff_getElem.mp hp j i j.isLt i.isLt hij)

/-- Reading any text succeeds.  In its table, the definitions of two symbols never overlap, each
holds the name it defines, and both lie inside the text; so every entry of the outline holds the
name it selects. -/
theorem definitions_apart_and_nested (text : String) :
    ∃ g, Grammar.ofText text = .ok g ∧
      (∀ i j : Fin g.table.symbols.length, i ≠ j →
        ∀ d e, (g.table.symbols.get i).definition = some d →
          (g.table.symbols.get j).definition = some e →
          d.span.stop ≤ e.span.start ∨ e.span.stop ≤ d.span.start) ∧
      (∀ s ∈ g.table.symbols, ∀ d, s.definition = some d →
        (d.span.start ≤ d.nameSpan.start ∧ d.nameSpan.stop ≤ d.span.stop) ∧
        ((Source.ofText text).Holds d.span.start ∧ (Source.ofText text).Holds d.span.stop) ∧
        (Source.ofText text).Holds d.nameSpan.start ∧
        (Source.ofText text).Holds d.nameSpan.stop) ∧
      ∀ entry ∈ g.table.outline,
        entry.span.start ≤ entry.nameSpan.start ∧ entry.nameSpan.stop ≤ entry.span.stop := by
  have hreads := reads_readItems .declarations (scan text)
  have hpair := pairwise_scan text
  refine ⟨_, ofText_eq_run text, ?_, ?_, ?_⟩
  · intro i j hij d e hd he
    have symm : ∀ {a b : Symbol},
        (∀ d ∈ a.definition.toList, ∀ e ∈ b.definition.toList, d.Apart e) →
        ∀ e ∈ b.definition.toList, ∀ d ∈ a.definition.toList, e.Apart d :=
      fun h e he d hd => (h d hd e he).symm
    exact get_of_pairwise_symm symm (symbols_apart hreads hpair) hij
      d (Option.mem_toList.mpr hd) e (Option.mem_toList.mpr he)
  · intro s hs d hd
    have hmem := definition_mem_items hs hd
    exact ⟨hreads.definitions_nested hpair d hmem, hreads.definitions_held d hmem⟩
  · intro entry he
    obtain ⟨s, hs, ho⟩ := List.mem_filterMap.mp he
    obtain ⟨d, hd, rfl⟩ := Option.map_eq_some_iff.mp ho
    exact hreads.definitions_nested hpair d (definition_mem_items hs hd)

end GrammarLens
