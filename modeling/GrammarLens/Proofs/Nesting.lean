import GrammarLens.Proofs.Caret

/-! # Uses in order, calls in nests

A body is read from left to right and a use is noted when it has been read to its end.  So a call is
noted behind all that its arguments use.  Of two uses that are noted one after the other, the first
one therefore ends before the second one starts, or the second one is a call and the first one lies
within it (`Use.Settled`).  Where a call ends is the token read last, which makes no difference
between a call that is closed and one that the input breaks off.

`InSequence` says this of the uses in a stretch of tokens, and the rules of `BuiltUp` carry it
through bodies and items.  What is noted is recorded in the same order, so it holds of the
references and of the calls in a table (`uses_ordered_and_nested`). -/

namespace GrammarLens

/-! ### Tokens in order -/

theorem InOrder.mono {ts ts' : List Token} {a b : Token} (hs : ts.Sublist ts')
    (h : InOrder ts a b) : InOrder ts' a b := by
  rcases h with ⟨rfl, hm⟩ | h
  · exact InOrder.refl (hs.subset hm)
  · exact Or.inr (h.trans hs)

/-- No token stands behind the last one. -/
theorem inOrder_getLastD {ts : List Token} {t : Token} (h : t ∈ ts) (last : Token) :
    InOrder ts t (ts.getLastD last) := by
  induction ts generalizing last with
  | nil => cases h
  | cons u ts ih =>
      rw [List.getLastD_cons]
      rcases List.mem_cons.mp h with rfl | h
      · rcases List.mem_cons.mp (List.getLastD_mem_cons (l := ts) (a := t)) with he | hm
        · rw [he]
          exact InOrder.refl List.mem_cons_self
        · exact Or.inr ((List.singleton_sublist.mpr hm).cons_cons t)
      · exact (ih h u).mono (List.sublist_cons_self u ts)

/-! ### Uses in sequence -/

/-- The token that a use ends with. -/
def Use.last : Use → Token
  | .name t => t
  | .precedence t => t
  | .call _ last _ => last

theorem Use.token_mem (use : Use) : use.token ∈ use.tokens := by
  cases use <;> exact List.mem_cons_self

theorem Use.last_mem (use : Use) : use.last ∈ use.tokens := by
  cases use with
  | name t => exact List.mem_cons_self
  | precedence t => exact List.mem_cons_self
  | call t last names => exact List.mem_cons_of_mem t List.mem_cons_self

theorem Use.inOrder {ts : List Token} {use : Use} (h : use.tokens.Sublist ts) :
    InOrder ts use.token use.last := by
  cases use with
  | name t => exact InOrder.refl (h.subset List.mem_cons_self)
  | precedence t => exact InOrder.refl (h.subset List.mem_cons_self)
  | call t last names => exact Or.inr h

/-- How a use stands to one that is noted later. -/
inductive Use.Settled (ts : List Token) (use later : Use) : Prop
  /-- It ends before the later one starts. -/
  | before : [use.last, later.token].Sublist ts → Use.Settled ts use later
  /-- The later one is a call, which starts before it and does not end before it does. -/
  | within : later.mention.role = .call → [later.token, use.token].Sublist ts →
      InOrder ts use.last later.last → Use.Settled ts use later

theorem Use.Settled.mono {ts ts' : List Token} {use later : Use} (hs : ts.Sublist ts')
    (h : use.Settled ts later) : use.Settled ts' later := by
  cases h with
  | before h => exact .before (h.trans hs)
  | within hr hf hl => exact .within hr (hf.trans hs) (hl.mono hs)

/-- The uses were noted in the order in which they end in `taken`. -/
structure InSequence (taken : List Token) (uses : List Use) : Prop where
  tokens : ∀ use ∈ uses, use.tokens.Sublist taken
  settled : uses.Pairwise (Use.Settled taken)

namespace InSequence

theorem append {taken taken' : List Token} {uses uses' : List Use} (h : InSequence taken uses)
    (h' : InSequence taken' uses') : InSequence (taken ++ taken') (uses ++ uses') where
  tokens := by
    intro use hu
    rcases List.mem_append.mp hu with hu | hu
    · exact (h.tokens use hu).trans (List.sublist_append_left _ _)
    · exact (h'.tokens use hu).trans (List.sublist_append_right _ _)
  settled := by
    refine List.pairwise_append.mpr ⟨?_, ?_, fun use hu later hl => ?_⟩
    · exact h.settled.imp fun hs => hs.mono (List.sublist_append_left _ _)
    · exact h'.settled.imp fun hs => hs.mono (List.sublist_append_right _ _)
    · have hlast : use.last ∈ taken := (h.tokens use hu).subset use.last_mem
      have hfirst : later.token ∈ taken' := (h'.tokens later hl).subset later.token_mem
      exact .before ((List.singleton_sublist.mpr hlast).append (List.singleton_sublist.mpr hfirst))

/-- All that was read behind the parenthesis of a call lies within the call. -/
theorem call (t next : Token) (names : List String) {taken : List Token} {uses : List Use}
    (h : InSequence taken uses) :
    InSequence (t :: next :: taken) (uses ++ [.call t (taken.getLastD next) names]) where
  tokens := by
    intro use hu
    rcases List.mem_append.mp hu with hu | hu
    · exact (h.tokens use hu).trans
        ((List.sublist_cons_self next taken).trans (List.sublist_cons_self t _))
    · rw [List.mem_singleton.mp hu]
      exact (List.singleton_sublist.mpr List.getLastD_mem_cons).cons_cons t
  settled := by
    have inside : taken.Sublist (t :: next :: taken) :=
      (List.sublist_cons_self next taken).trans (List.sublist_cons_self t _)
    have hsettled := h.settled.imp fun hs => hs.mono inside
    refine List.pairwise_append.mpr
      ⟨hsettled, List.pairwise_singleton _ _, fun use hu later hl => ?_⟩
    rw [List.mem_singleton.mp hl]
    have htokens := (h.tokens use hu).subset
    refine .within rfl ?_ ((inOrder_getLastD (htokens use.last_mem) next).mono inside)
    have hfirst : use.token ∈ next :: taken := List.mem_cons_of_mem next (htokens use.token_mem)
    exact (List.singleton_sublist.mpr hfirst).cons_cons t

theorem builtUp : BuiltUp InSequence where
  nil _ := ⟨by simp, List.Pairwise.nil⟩
  append := append
  single use ht _ := by
    refine ⟨fun u hu => ?_, List.pairwise_singleton _ _⟩
    rw [List.mem_singleton.mp hu, ht]
  call t next names _ _ h _ := h.call t next names

end InSequence

/-! ### Uses in items -/

theorem uses_symbols (ts : List Token) (kind : Symbol.Kind) (tag : Option String) :
    (ts.map fun t => Item.symbol t kind tag).flatMap Item.uses = [] := by
  rw [List.flatMap_map, List.flatMap_eq_nil_iff]
  exact fun _ _ => rfl

theorem uses_readStart (ts : List Token) : (readStart ts).1.flatMap Item.uses = [] := by
  cases ts with
  | nil => rfl
  | cons t rest =>
      rw [readStart]
      split <;> rfl

namespace BuiltUp

variable {P : List Token → List Use → Prop} (h : BuiltUp P)
include h

theorem of_body? (ts : List Token) :
    ∃ taken, ts = taken ++ (body? ts).2 ∧ P taken ((body? ts).1.elim [] Body.uses) := by
  cases ts with
  | nil => exact ⟨[], rfl, h.nil []⟩
  | cons t rest =>
      unfold body?
      simp only
      split
      · obtain ⟨taken, ha, hu⟩ := h.of_readBody t rest
        exact ⟨t :: taken, by rw [List.cons_append, ← ha.split], h.append_left [t] hu⟩
      · exact ⟨[], rfl, h.nil []⟩

/-- What is stepped over, and what leaves items without uses. -/
theorem of_no_uses {rest after : List Token} {items : List Item} (t : Token) (hs : after <:+ rest)
    (hn : items.flatMap Item.uses = []) :
    ∃ taken, rest = taken ++ after ∧ P (t :: taken) (items.flatMap Item.uses) := by
  obtain ⟨taken, hs⟩ := hs
  rw [hn]
  exact ⟨taken, hs.symm, h.nil _⟩

theorem of_readDeclaredRule (directive : Token) (ts : List Token) :
    ∃ taken, ts = taken ++ (readDeclaredRule directive ts).2 ∧
      P (directive :: taken) ((readDeclaredRule directive ts).1.flatMap Item.uses) := by
  have hinline := skipInline_suffix ts
  unfold readDeclaredRule
  cases hs : skipInline ts with
  | nil => exact h.of_no_uses directive (List.nil_suffix) rfl
  | cons name rest =>
      rw [hs] at hinline
      simp only
      split
      · obtain ⟨inline, hinline⟩ := hinline
        obtain ⟨skipped, hskipped⟩ := (typeTag?_suffix (parameters? rest).2).trans
          (parameters?_suffix rest)
        obtain ⟨taken, hb, hu⟩ := h.of_body? (typeTag? (parameters? rest).2).2
        refine ⟨inline ++ name :: (skipped ++ taken), ?_, ?_⟩
        · calc ts = inline ++ name :: rest := hinline.symm
            _ = inline ++ name :: (skipped ++ (taken ++ (body? _).2)) := by rw [← hb, hskipped]
            _ = _ := by simp
        · have := h.append_left (directive :: (inline ++ name :: skipped)) hu
          simpa [Item.uses, Rule.uses] using this
      · exact h.of_no_uses directive hinline rfl

theorem of_readDeclaration (t : Token) (rest : List Token) :
    ∃ taken, rest = taken ++ (readDeclaration t rest).2 ∧
      P (t :: taken) ((readDeclaration t rest).1.flatMap Item.uses) := by
  have hsuffix : (readDeclaration t rest).2 <:+ rest := by
    obtain ⟨taken, hsplit, -⟩ := readDeclaration_reads t rest
    exact ⟨taken, hsplit.symm⟩
  revert hsuffix
  unfold readDeclaration
  split
  · split
    · exact fun hs => h.of_no_uses t hs (uses_symbols _ _ _)
    · exact fun hs => h.of_no_uses t hs (uses_readStart rest)
    · exact fun hs => h.of_no_uses t hs (uses_symbols _ _ _)
    · exact fun hs => h.of_no_uses t hs rfl
    · exact fun _ => h.of_readDeclaredRule t rest
    · exact fun hs => h.of_no_uses t hs rfl
  · split
    · exact fun hs => h.of_no_uses t hs rfl
    · exact fun hs => h.of_no_uses t hs rfl

theorem of_readRule (t : Token) (rest : List Token) :
    ∃ taken, rest = taken ++ (readRule t rest).2 ∧
      P (t :: taken) ((readRule t rest).1.flatMap Item.uses) := by
  unfold readRule
  split
  · exact h.of_readDeclaredRule t rest
  · split
    · obtain ⟨aliased, halias⟩ := afterAlias_suffix rest
      obtain ⟨taken, hb, hu⟩ := h.of_body? (afterAlias rest)
      cases hbody : body? (afterAlias rest) with
      | mk body after =>
          rw [hbody] at hb hu
          cases body with
          | none => exact h.of_no_uses t (List.suffix_refl rest) rfl
          | some body =>
              refine ⟨aliased ++ taken, ?_, ?_⟩
              · rw [List.append_assoc, ← hb, halias]
              · have := h.append_left (t :: aliased) hu
                simpa [Item.uses, Rule.uses] using this
    · exact h.of_no_uses t (List.suffix_refl rest) rfl

theorem of_readItem (place : Section) (t : Token) (rest : List Token) :
    ∃ taken, rest = taken ++ (readItem place t rest).2 ∧
      P (t :: taken) ((readItem place t rest).1.flatMap Item.uses) := by
  cases place with
  | declarations => exact h.of_readDeclaration t rest
  | rules => exact h.of_readRule t rest
  | epilogue => exact h.of_no_uses t (List.suffix_refl rest) rfl

/-- What holds of uses by the rules of reading holds of all uses in a token list. -/
theorem of_readItems (place : Section) (ts : List Token) :
    P ts ((readItems place ts).1.flatMap Item.uses) := by
  fun_induction readItems place ts with
  | case1 => exact h.nil []
  | case2 => exact h.nil _
  | case3 place t rest _ _ ih => exact h.append_left [t] ih
  | case4 place t rest _ _ ih =>
      obtain ⟨taken, hsplit, hu⟩ := h.of_readItem place t rest
      have := h.append hu ih
      rw [List.cons_append, ← hsplit] at this
      rwa [prependItems, List.flatMap_append]

end BuiltUp

/-! ### Spans in order -/

namespace Span

/-- The span starts before the other one, and stops before the other one starts or just there. -/
def Precedes (a b : Span) : Prop := a.start < b.start ∧ a.stop ≤ b.start

/-- The span starts behind the start of the other one, and does not stop behind it. -/
def Within (a b : Span) : Prop := b.start < a.start ∧ a.stop ≤ b.stop

theorem Precedes.stop_le {a b : Span} (h : a.Precedes b) : a.stop ≤ b.stop :=
  le_trans h.2 b.start_le_stop

/-- One of the spans stands before the other or within it. -/
def Nested (a b : Span) : Prop :=
  (a.Precedes b ∨ b.Precedes a) ∨ (a.Within b ∨ b.Within a)

theorem Nested.symm {a b : Span} (h : a.Nested b) : b.Nested a := h.imp Or.symm Or.symm

end Span

theorem scan_precedes (text : String) :
    (scan text).Pairwise fun t u => t.place.Precedes u.place := by
  have hboth := List.Pairwise.and (pairwise_scan text) (scan_starts_apart text)
  refine hboth.imp fun {t u} h => ⟨?_, h.1⟩
  exact lt_of_le_of_ne (le_trans t.start_le_stop h.1) h.2

section Spans

variable {ts : List Token} (hp : ts.Pairwise fun t u => t.place.Precedes u.place)
include hp

theorem precedes_of_sublist {t u : Token} (h : [t, u].Sublist ts) : t.place.Precedes u.place :=
  (List.pairwise_cons.mp (hp.sublist h)).1 u (by simp)

theorem InOrder.start_le_of_precedes {t u : Token} (h : InOrder ts t u) :
    t.start ≤ u.start ∧ t.stop ≤ u.stop := h.start_le (hp.imp fun h => h.2)

theorem Use.mention_span {use : Use} (h : use.tokens.Sublist ts) :
    use.mention.span.start = use.token.start ∧ use.mention.span.stop = use.last.stop := by
  cases use with
  | name t => exact ⟨rfl, rfl⟩
  | precedence t => exact ⟨rfl, rfl⟩
  | call t last names =>
      have hstop : t.start ≤ last.stop :=
        le_trans t.start_le_stop (precedes_of_sublist hp h).stop_le
      exact ⟨Token.through_start t last, Token.through_stop hstop⟩

end Spans

/-- How a mention stands to one that is recorded later: it stands before the later one, or the later
one is a call around it. -/
def Mention.Settled (m later : Mention) : Prop :=
  m.span.Precedes later.span ∨ (later.role = .call ∧ m.span.Within later.span)

theorem Mention.Settled.nested {m later : Mention} (h : m.Settled later) :
    m.span.Nested later.span := by
  rcases h with h | ⟨-, h⟩
  · exact Or.inl (Or.inl h)
  · exact Or.inr (Or.inl h)

theorem Use.Settled.mention {ts : List Token} {use later : Use} (h : use.Settled ts later)
    (hp : ts.Pairwise fun t u => t.place.Precedes u.place) (hu : use.tokens.Sublist ts)
    (hl : later.tokens.Sublist ts) : use.mention.Settled later.mention := by
  obtain ⟨hstart, hstop⟩ := use.mention_span hp hu
  obtain ⟨hstart', hstop'⟩ := later.mention_span hp hl
  cases h with
  | before hbefore =>
      obtain ⟨hlt, hle⟩ := precedes_of_sublist hp hbefore
      refine Or.inl ⟨?_, ?_⟩
      · rw [hstart, hstart']
        exact lt_of_le_of_lt ((use.inOrder hu).start_le_of_precedes hp).1 hlt
      · rw [hstop, hstart']
        exact hle
  | within hcall hfirst hlast =>
      refine Or.inr ⟨hcall, ?_, ?_⟩
      · rw [hstart, hstart']
        exact (precedes_of_sublist hp hfirst).1
      · rw [hstop, hstop']
        exact (hlast.start_le_of_precedes hp).2

theorem InSequence.mentions {ts : List Token} {uses : List Use} (h : InSequence ts uses)
    (hp : ts.Pairwise fun t u => t.place.Precedes u.place) :
    (uses.map Use.mention).Pairwise Mention.Settled := by
  rw [List.pairwise_map]
  exact h.settled.imp_of_mem fun hu hl hs => hs.mention hp (h.tokens _ hu) (h.tokens _ hl)

/-! ### Recording in order -/

/-- The mention is a use, not a definition. -/
def Mention.isUse (m : Mention) : Bool := m.role != .definition

/-- The mention is a call. -/
def Mention.isCall (m : Mention) : Bool := m.role == .call

theorem Mention.isUse_of_isCall {m : Mention} (h : m.isCall = true) : m.isUse = true := by
  rw [isUse, eq_of_beq h]
  rfl

/-- The calls among the mentions of a table are the calls of its symbols. -/
theorem Table.filter_calls_mentions (table : Table) :
    (table.mentions.filter Mention.isCall).map Mention.span =
      (table.symbols.flatMap Symbol.calls).map Call.span := by
  rw [Table.mentions, List.filter_flatMap, List.map_flatMap, List.map_flatMap]
  congr 1
  funext s
  have hdefinition : (s.definition.toList.map fun d =>
      (⟨s.name, .definition, d.nameSpan⟩ : Mention)).filter Mention.isCall = [] := by
    cases s.definition <;> rfl
  have hreferences : (s.references.map fun r => (⟨s.name, .reference, r⟩ : Mention)).filter
      Mention.isCall = [] := by
    simp [Mention.isCall]
  have hcalls : (s.calls.map fun c => (⟨s.name, .call, c.span⟩ : Mention)).filter
      Mention.isCall = s.calls.map fun c => ⟨s.name, .call, c.span⟩ := by
    simp [Mention.isCall]
  rw [Symbol.mentions, List.filter_append, List.filter_append, hdefinition, hreferences, hcalls,
    List.nil_append, List.nil_append, List.map_map]
  rfl

theorem Use.mention_isUse (use : Use) : use.mention.isUse = true := by cases use <;> rfl

/-- Without their definitions, the mentions of items are those of their uses. -/
theorem filter_mentions_items (items : List Item) :
    ((items.flatMap Item.mentions).map Prod.snd).filter Mention.isUse =
      (items.flatMap Item.uses).map Use.mention := by
  induction items with
  | nil => rfl
  | cons item items ih =>
      have huses :
          (item.uses.map Use.mention).filter Mention.isUse = item.uses.map Use.mention := by
        refine List.filter_eq_self.mpr fun m hm => ?_
        obtain ⟨use, -, rfl⟩ := List.mem_map.mp hm
        exact use.mention_isUse
      have hitem : (item.mentions.map Prod.snd).filter Mention.isUse =
          item.uses.map Use.mention := by
        rw [Item.mentions, List.map_cons, List.map_map]
        exact huses
      rw [List.flatMap_cons, List.map_append, List.filter_append, hitem, ih, List.flatMap_cons,
        List.map_append]

namespace Table.Operation

theorem eq_refer_of_reference? {op : Table.Operation} {name : String} {span : Span}
    (h : op.reference? name = some span) : op = .refer name span := by
  cases op with
  | refer n r =>
      rw [reference?] at h
      split at h
      · rename_i hname
        rw [hname, Option.some.inj h]
      · cases h
  | _ => cases h

theorem eq_call_of_call? {op : Table.Operation} {name : String} {c : Call}
    (h : op.call? name = some c) : op = .call name c := by
  cases op with
  | call n d =>
      rw [call?] at h
      split at h
      · rename_i hname
        rw [hname, Option.some.inj h]
      · cases h
  | _ => cases h

end Table.Operation

/-- Two operations record their uses in order. -/
def Table.Operation.Settled (op later : Table.Operation) : Prop :=
  ∀ m ∈ op.mentions, ∀ m' ∈ later.mentions,
    m.isUse = true → m'.isUse = true → m.Settled m'

/-- A symbol of the table after a history is what the history makes of a name. -/
theorem Table.mem_symbols_run {ops : List Table.Operation} {s : Symbol}
    (h : s ∈ (Table.empty.run ops).symbols) :
    (∃ name, Side.template.after ops name = s) ∨ ∃ name, Side.plain.after ops name = s := by
  rcases List.mem_append.mp h with h | h
  · exact Or.inl (exists_after_of_mem .template h)
  · exact Or.inr (exists_after_of_mem .plain h)

section Items

variable {items : List Item}
  (h : ((items.flatMap Item.uses).map Use.mention).Pairwise Mention.Settled)
include h

theorem settled_operations :
    (items.flatMap Item.operations).Pairwise Table.Operation.Settled := by
  rw [← filter_mentions_items, List.pairwise_filter] at h
  exact (List.pairwise_flatMap.mp (h.sublist (operations_mentions_items items))).2

theorem references_ordered (name : String) :
    ((items.flatMap Item.operations).filterMap (·.reference? name)).Pairwise Span.Precedes := by
  rw [List.pairwise_filterMap]
  refine (settled_operations h).imp fun {op later} hsettled r hr r' hr' => ?_
  obtain rfl := Table.Operation.eq_refer_of_reference? hr
  obtain rfl := Table.Operation.eq_refer_of_reference? hr'
  rcases hsettled _ List.mem_cons_self _ List.mem_cons_self rfl rfl with hp | ⟨hcall, -⟩
  · exact hp
  · cases hcall

theorem calls_ordered (name : String) :
    ((items.flatMap Item.operations).filterMap (·.call? name)).Pairwise
      fun c c' => c.span.stop ≤ c'.span.stop := by
  rw [List.pairwise_filterMap]
  refine (settled_operations h).imp fun {op later} hsettled c hc c' hc' => ?_
  obtain rfl := Table.Operation.eq_call_of_call? hc
  obtain rfl := Table.Operation.eq_call_of_call? hc'
  rcases hsettled _ List.mem_cons_self _ List.mem_cons_self rfl rfl with hp | ⟨-, hw⟩
  · exact hp.stop_le
  · exact hw.2

/-- Of any two calls in a table, one stands before the other or within it. -/
theorem calls_nested :
    ((Table.empty.run (items.flatMap Item.operations)).symbols.flatMap Symbol.calls).Pairwise
      fun c c' => c.span.Nested c'.span := by
  rw [← filter_mentions_items, List.pairwise_filter] at h
  have hmentions : (Table.empty.run (items.flatMap Item.operations)).mentions.Pairwise
      fun m m' => m.isUse = true → m'.isUse = true → m.span.Nested m'.span := by
    refine pairwise_of_subperm (fun hn hm hm' => (hn hm' hm).symm) (mentions_run_subperm items) ?_
    exact h.imp fun hs hm hm' => (hs hm hm').nested
  have hcalls : ((Table.empty.run (items.flatMap Item.operations)).mentions.filter
      Mention.isCall).Pairwise fun m m' => m.span.Nested m'.span := by
    rw [List.pairwise_filter]
    exact hmentions.imp fun hn hm hm' =>
      hn (Mention.isUse_of_isCall hm) (Mention.isUse_of_isCall hm')
  rw [← List.pairwise_map, ← Table.filter_calls_mentions]
  exact List.pairwise_map.mpr hcalls

end Items

/-! ### The table of a text -/

/-- In the table of any text, the references to each symbol are listed in the order in which they
stand in the text.  Of any two calls, of one template or of two, one stands before the other or
within it, and the calls of each template are listed in the order in which they end. -/
theorem uses_ordered_and_nested (text : String) :
    ∃ g, Grammar.ofText text = .ok g ∧
      (∀ s ∈ g.table.symbols, s.references.Pairwise Span.Precedes) ∧
      ((g.table.symbols.flatMap Symbol.calls).Pairwise fun c c' =>
        (c.span.Precedes c'.span ∨ c'.span.Precedes c.span) ∨
          (c.span.Within c'.span ∨ c'.span.Within c.span)) ∧
      ∀ s ∈ g.table.symbols, s.calls.Pairwise fun c c' => c.span.stop ≤ c'.span.stop := by
  have hsequence := InSequence.builtUp.of_readItems .declarations (scan text)
  have hsettled := hsequence.mentions (scan_precedes text)
  refine ⟨_, ofText_eq_run text, ?_, calls_nested hsettled, ?_⟩
  · intro s hs
    rcases Table.mem_symbols_run hs with ⟨name, rfl⟩ | ⟨name, rfl⟩
    · rw [Table.template_after]
      exact List.Pairwise.nil
    · rw [Table.plain_after]
      exact references_ordered hsettled name
  · intro s hs
    rcases Table.mem_symbols_run hs with ⟨name, rfl⟩ | ⟨name, rfl⟩
    · rw [Table.template_after]
      exact calls_ordered hsettled name
    · rw [Table.plain_after]
      exact List.Pairwise.nil

end GrammarLens
