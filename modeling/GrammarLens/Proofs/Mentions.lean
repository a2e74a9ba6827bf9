import GrammarLens.Proofs.Definitions

/-! # Every mention in a symbol table is a token of the text

`Table.mentions` lists what a table says about places of symbols: the name in each definition, every
reference and every call.  Reading hands each token to at most one item and an item names each of
its tokens once, so the mentions of a table can be assigned to tokens of the text, no two to the
same one (`mentions_assigned_to_tokens`). -/

namespace GrammarLens

/-- What a symbol is mentioned for. -/
inductive Mention.Role where
  | definition
  | reference
  | call
deriving DecidableEq, Repr

/-- One place where a table says that a symbol occurs. -/
structure Mention where
  name : String
  role : Mention.Role
  span : Span
deriving DecidableEq, Repr

/-- All mentions of a symbol: the name in its definition, its references and its calls. -/
def Symbol.mentions (s : Symbol) : List Mention :=
  s.definition.toList.map (fun d => ⟨s.name, .definition, d.nameSpan⟩) ++
    (s.references.map (fun r => ⟨s.name, .reference, r⟩) ++
      s.calls.map fun c => ⟨s.name, .call, c.span⟩)

/-- All mentions of the symbols of a table, templates and plain symbols alike. -/
def Table.mentions (table : Table) : List Mention := table.symbols.flatMap Symbol.mentions

/-! ### Mentions and operations -/

/-- The mentions that an operation brings. -/
def Table.Operation.mentions : Table.Operation → List Mention
  | .define name _ d => [⟨name, .definition, d.nameSpan⟩]
  | .defineTemplate name _ d => [⟨name, .definition, d.nameSpan⟩]
  | .refer name span => [⟨name, .reference, span⟩]
  | .call name c => [⟨name, .call, c.span⟩]
  | .tagPlain _ _ => []
  | .tagTemplate _ _ => []
  | .setStart _ => []

namespace Symbol

/-- A definition shows up once, and only if there was none before. -/
theorem mentions_define {s t : Symbol} {d : Definition} (ht : t.definition = some d)
    (h : t.name = s.name ∧ t.references = s.references ∧ t.calls = s.calls) :
    (if s.isDefined then s else t).mentions.Subperm
      ([⟨s.name, .definition, d.nameSpan⟩] ++ s.mentions) := by
  cases hs : s.isDefined with
  | true =>
      rw [if_pos rfl]
      exact (List.sublist_append_right _ _).subperm
  | false =>
      have hnone : s.definition = none := by simpa [isDefined] using hs
      obtain ⟨h1, h2, h3⟩ := h
      rw [if_neg (by decide)]
      simp only [mentions, ht, h1, h2, h3, hnone]
      exact List.Subperm.refl _

theorem mentions_refer (s : Symbol) (span : Span) :
    ({ s with references := s.references ++ [span] } : Symbol).mentions.Perm
      (⟨s.name, .reference, span⟩ :: s.mentions) := by
  simp only [mentions, List.map_append, List.map_cons, List.map_nil, List.append_assoc,
    List.singleton_append]
  rw [← List.append_assoc, ← List.append_assoc]
  exact List.perm_middle

theorem mentions_call (s : Symbol) (c : Call) :
    ({ s with calls := s.calls ++ [c] } : Symbol).mentions.Perm
      (⟨s.name, .call, c.span⟩ :: s.mentions) := by
  simp only [mentions, List.map_append, List.map_cons, List.map_nil, ← List.append_assoc]
  exact List.perm_append_singleton _ _

end Symbol

theorem mentions_grow : Table.Grows Symbol.mentions Table.Operation.mentions := by
  intro op blank hb
  cases op with
  | define name kind d =>
      cases hb
      refine ⟨rfl, fun s hs => ?_⟩
      rw [← show s.name = name from hs]
      exact Symbol.mentions_define (t := { s with kind := kind, definition := some d }) rfl
        ⟨rfl, rfl, rfl⟩
  | defineTemplate name parameters d =>
      cases hb
      refine ⟨rfl, fun s hs => ?_⟩
      rw [← show s.name = name from hs]
      exact Symbol.mentions_define
        (t := { s with parameters := some parameters, definition := some d }) rfl ⟨rfl, rfl, rfl⟩
  | refer name span =>
      cases hb
      refine ⟨rfl, fun s hs => ?_⟩
      rw [← show s.name = name from hs]
      exact (s.mentions_refer span).subperm
  | call name c =>
      cases hb
      refine ⟨rfl, fun s hs => ?_⟩
      rw [← show s.name = name from hs]
      exact (s.mentions_call c).subperm
  | tagPlain | tagTemplate =>
      cases hb
      exact ⟨rfl, fun s _ => List.Subperm.refl _⟩
  | setStart => cases hb

/-! ### Mentions and items -/

/-- The mention that a use leads to, unless its name is a placeholder. -/
def Use.mention : Use → Mention
  | .name t => ⟨t.value, .reference, t.place⟩
  | .precedence t => ⟨t.value, .reference, t.place⟩
  | .call t last _ => ⟨t.value, .call, t.through last⟩

/-- What an item mentions, each with the token that names it. -/
def Item.mentions (item : Item) : List (Token × Mention) :=
  (item.name, ⟨item.name.value, .definition, item.name.place⟩) ::
    item.uses.map fun use => (use.token, use.mention)

theorem Item.mentions_fst (item : Item) : item.mentions.map Prod.fst = item.named := by
  simp [Item.mentions, Item.named, Function.comp_def]

theorem Use.operations_mentions (placeholders : List String) (use : Use) :
    ((use.operations placeholders).flatMap Table.Operation.mentions).Sublist [use.mention] := by
  cases use with
  | name t =>
      simp only [Use.operations]
      split
      · exact List.nil_sublist _
      · exact List.Sublist.refl _
  | precedence t => exact List.Sublist.refl _
  | call t last names => exact List.Sublist.refl _

theorem operations_mentions_uses (placeholders : List String) (uses : List Use) :
    ((uses.flatMap (Use.operations placeholders)).flatMap Table.Operation.mentions).Sublist
      (uses.map Use.mention) := by
  induction uses with
  | nil => exact List.nil_sublist _
  | cons use uses ih =>
      rw [List.flatMap_cons, List.flatMap_append, List.map_cons]
      exact (use.operations_mentions placeholders).append ih

theorem Rule.defining_mentions (rule : Rule) :
    rule.defining.mentions = [⟨rule.name.value, .definition, rule.name.place⟩] := by
  unfold Rule.defining
  split <;> rfl

theorem Rule.tagging_mentions (rule : Rule) :
    rule.tagging.flatMap Table.Operation.mentions = [] := by
  unfold Rule.tagging
  split <;> rfl

/-- An item's operations bring no more than the item's mentions. -/
theorem Item.operations_mentions (item : Item) :
    (item.operations.flatMap Table.Operation.mentions).Sublist (item.mentions.map Prod.snd) := by
  cases item with
  | symbol t kind tag => cases tag <;> exact List.Sublist.refl _
  | start t => exact List.Sublist.refl _
  | rule r =>
      rw [Item.operations, List.flatMap_cons, List.flatMap_append, r.defining_mentions,
        r.tagging_mentions, List.nil_append, Item.mentions, List.map_cons, List.map_map]
      exact (operations_mentions_uses _ r.uses).cons_cons _

theorem operations_mentions_items (items : List Item) :
    ((items.flatMap Item.operations).flatMap Table.Operation.mentions).Sublist
      ((items.flatMap Item.mentions).map Prod.snd) := by
  induction items with
  | nil => exact List.nil_sublist _
  | cons item items ih =>
      rw [List.flatMap_cons, List.flatMap_append, List.flatMap_cons, List.map_append]
      exact item.operations_mentions.append ih

/-- The mentions of a table that items were recorded in are among the items' mentions. -/
theorem mentions_run_subperm (items : List Item) :
    (Table.empty.run (items.flatMap Item.operations)).mentions.Subperm
      ((items.flatMap Item.mentions).map Prod.snd) := by
  have h := Table.run_subperm mentions_grow Table.empty (items.flatMap Item.operations)
  have hempty : Table.empty.symbols.flatMap Symbol.mentions = [] := rfl
  rw [hempty, List.append_nil] at h
  exact h.trans (operations_mentions_items items).subperm

/-! ### Mentions and tokens -/

/-- The mention `m` is one of the token `t` among `ts`: it has its name, and its place too unless it
is a call, which goes on to a later token. -/
structure Mention.OfToken (ts : List Token) (t : Token) (m : Mention) : Prop where
  mem : t ∈ ts
  naming : t.Naming
  name_eq : m.name = t.value
  span_eq : m.role ≠ .call → m.span = t.place
  call_eq : m.role = .call → ∃ last ∈ ts, m.span = t.through last

theorem Use.mention_ofToken {ts : List Token} {use : Use} (hn : use.token.Naming)
    (ht : ∀ t ∈ use.tokens, t ∈ ts) : use.mention.OfToken ts use.token := by
  cases use with
  | name t =>
      exact ⟨ht t (by simp [Use.tokens]), hn, rfl, fun _ => rfl, fun h => by cases h⟩
  | precedence t =>
      exact ⟨ht t (by simp [Use.tokens]), hn, rfl, fun _ => rfl, fun h => by cases h⟩
  | call t last names =>
      refine ⟨ht t (by simp [Use.tokens]), hn, rfl, fun h => absurd rfl h, fun _ => ?_⟩
      exact ⟨last, ht last (by simp [Use.tokens]), rfl⟩

theorem Item.From.mention_ofToken {taken ts : List Token} {item : Item} (h : item.From taken)
    (hs : taken.Sublist ts) : ∀ o ∈ item.mentions, o.2.OfToken ts o.1 := by
  intro o ho
  rcases List.mem_cons.mp ho with rfl | ho
  · have hmem : item.name ∈ taken := h.named.subset (by simp [Item.named])
    exact ⟨hs.subset hmem, h.naming _ (by simp [Item.named]), rfl, fun _ => rfl,
      fun h => by cases h⟩
  · obtain ⟨use, hu, rfl⟩ := List.mem_map.mp ho
    refine Use.mention_ofToken (h.naming _ ?_) ?_
    · exact List.mem_cons_of_mem _ (List.mem_map_of_mem hu)
    · exact fun t ht => hs.subset ((h.ordered use hu).subset ht)

theorem Reads.mention_ofToken {ts : List Token} {items : List Item} (h : Reads ts items) :
    ∀ o ∈ items.flatMap Item.mentions, o.2.OfToken ts o.1 := by
  intro o ho
  obtain ⟨item, hi, ho⟩ := List.mem_flatMap.mp ho
  obtain ⟨taken, hs, hf⟩ := h.from_mem item hi
  exact hf.mention_ofToken hs o ho

theorem Reads.mentions_fst_subperm {ts : List Token} {items : List Item} (h : Reads ts items) :
    ((items.flatMap Item.mentions).map Prod.fst).Subperm ts := by
  rw [List.map_flatMap]
  simp only [Item.mentions_fst]
  exact h.named_subperm

/-- Two lists that each embed into one side of a list of pairs: an element of the first is sent
to an element of the second that it is paired with, and no two to the same one. -/
theorem exists_injection_of_subperm {α β : Type} [DecidableEq α] [DecidableEq β]
    {as : List α} {bs : List β} {pairs : List (β × α)} (ha : as.Subperm (pairs.map Prod.snd))
    (hb : (pairs.map Prod.fst).Subperm bs) :
    ∃ f : Fin as.length → Fin bs.length, Function.Injective f ∧
      ∀ i, (bs.get (f i), as.get i) ∈ pairs := by
  have hlen : (pairs.map Prod.snd).length = (pairs.map Prod.fst).length := by simp
  refine ⟨fun i => hb.idxInj (Fin.cast hlen (ha.idxInj i)), ?_, ?_⟩
  · intro i j hij
    have hval := Fin.val_eq_of_eq (hb.idxInj_injective hij)
    exact ha.idxInj_injective (Fin.ext hval)
  · intro i
    have h1 := hb.getElem_idxInj_eq_getElem (i := Fin.cast hlen (ha.idxInj i))
    have h2 := ha.getElem_idxInj_eq_getElem (i := i)
    simp only [List.get_eq_getElem]
    rw [h1, ← h2, List.getElem_map, List.getElem_map]
    exact List.getElem_mem _

/-! ### Tokens and the text -/

/-- The token bears the mention: it can name a symbol and has the mention's name as its text.  It
covers the mention exactly, and there stands the name in the text; only a call goes on behind it.
All of the mention lies inside the text. -/
structure Token.Bears (source : Source) (t : Token) (m : Mention) : Prop where
  naming : t.kind = .identifier ∨ t.kind = .character
  value_eq : t.value = m.name
  exact : m.role ≠ .call → t.span = .ok m.span ∧ source.between m.span = m.name.toList
  call : m.role = .call → ∃ own, t.span = .ok own ∧ m.span.start = own.start
  inside : source.Holds m.span.start ∧ source.Holds m.span.stop

/-- A token that can name a symbol selects its value in the text. -/
theorem Token.Naming.between_place {text : String} {t : Token} (hn : t.Naming)
    (h : t ∈ scan text) : (Source.ofText text).between t.place = t.value.toList := by
  have he : t.isEnd = false := by rcases hn with hk | hk <;> simp [Token.isEnd, hk]
  have hk : t.kind ≠ .typeTag := by rcases hn with hk | hk <;> simp [hk]
  rw [between_place_eq_spelling h he, spelling, if_neg hk]

theorem Mention.OfToken.bears {text : String} {t : Token} {m : Mention}
    (h : m.OfToken (scan text) t) :
    t.Bears (Source.ofText text) m := by
  have hspan : t.span = .ok t.place := Token.span_eq_place (placed_scan text t h.mem)
  refine ⟨h.naming, h.name_eq.symm, ?_, ?_, ?_⟩
  · intro hr
    rw [h.span_eq hr, h.name_eq]
    exact ⟨hspan, h.naming.between_place h.mem⟩
  · intro hr
    obtain ⟨last, -, hs⟩ := h.call_eq hr
    exact ⟨t.place, hspan, by rw [hs, Token.through_start, Token.place_start]⟩
  · by_cases hr : m.role = .call
    · obtain ⟨last, hl, hs⟩ := h.call_eq hr
      rw [hs]
      exact holds_through h.mem hl
    · rw [h.span_eq hr]
      exact holds_of_mem_scan h.mem

/-- The mentions in the table of a text can be assigned to tokens that can name symbols, no two to
the same token: each token bears the mention that it is assigned to.  Definitions lie inside the
text as well. -/
theorem mentions_assigned_to_tokens (text : String) :
    ∃ g, Grammar.ofText text = .ok g ∧
      (∃ f : Fin g.table.mentions.length → Fin (scan text).length, Function.Injective f ∧
        ∀ i, ((scan text).get (f i)).Bears (Source.ofText text) (g.table.mentions.get i)) ∧
      ∀ s ∈ g.table.symbols, ∀ d, s.definition = some d →
        (Source.ofText text).Holds d.span.start ∧ (Source.ofText text).Holds d.span.stop := by
  have hreads := reads_readItems .declarations (scan text)
  refine ⟨_, ofText_eq_run text, ?_, ?_⟩
  · obtain ⟨f, hf, hpair⟩ := exists_injection_of_subperm
      (mentions_run_subperm (readItems .declarations (scan text)).1) hreads.mentions_fst_subperm
    exact ⟨f, hf, fun i => (hreads.mention_ofToken _ (hpair i)).bears⟩
  · intro s hs d hd
    exact (hreads.definitions_held d (definition_mem_items hs hd)).1

end GrammarLens
