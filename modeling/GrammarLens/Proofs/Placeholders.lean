import GrammarLens.Proofs.BodyPlaces

/-! # Placeholders in the body of a template

The parameters of a template stand for symbols that a call will give.  In the body of the template
they are placeholders: a plain use or an argument with such a name refers to nothing, at any depth.
The operand of `%prec` refers to the symbol with its name even so.

`reference_mem_placedUses_iff` says which uses refer to a name, and `referencesTo_foldl_record` what
becomes of them in a table. -/

namespace GrammarLens

/-! ### References in a table -/

/-- Changing one symbol of a list leaves the others in their places. -/
theorem SymbolList.get?_alter (blank : Symbol) (change : Symbol → Symbol)
    (hchange : ∀ s, (change s).name = s.name) (symbols : SymbolList) (name : String) :
    get? (alter blank change symbols) name =
      if name = blank.name then some (change ((get? symbols name).getD blank))
      else get? symbols name := by
  induction symbols with
  | nil =>
      by_cases hname : name = blank.name
      · simp [alter, get?, hchange, hname]
      · simp [alter, get?, hchange, hname, Ne.symm hname]
  | cons s symbols ih =>
      have hcons : ∀ (s : Symbol) (more : SymbolList),
          get? (s :: more) name = if s.name = name then some s else get? more name := by
        intro s more
        rw [get?, List.find?_cons]
        by_cases hs : s.name = name
        · simp [hs]
        · rw [beq_false_of_ne hs, if_neg hs]
          rfl
      rw [alter]
      by_cases hs : s.name = blank.name
      · rw [if_pos hs, hcons, hcons, hchange]
        by_cases hname : name = blank.name
        · simp [hs, hname]
        · simp [hs, hname, Ne.symm hname]
      · rw [if_neg hs, hcons, hcons, ih]
        by_cases hname : s.name = name
        · rw [if_pos hname, if_pos hname, if_neg fun h => hs (hname.trans h)]
        · rw [if_neg hname, if_neg hname]

/-- The references to a plain name that a table has. -/
def Table.referencesTo (table : Table) (name : String) : List Span :=
  (table.plain? name).elim [] Symbol.references

/-- The place of a reference to the name. -/
def PlacedUse.reference? (name : String) : PlacedUse → Option Span
  | .reference n span => if n = name then some span else none
  | .call _ _ => none

/-- Recording a use adds its reference, and no other. -/
theorem referencesTo_record (table : Table) (use : PlacedUse) (name : String) :
    (table.record use).referencesTo name =
      table.referencesTo name ++ (use.reference? name).toList := by
  cases use with
  | call f c => simp [Table.record, Table.call, Table.referencesTo, Table.plain?,
      PlacedUse.reference?]
  | reference n span =>
      have halter : (table.refer n span).plain? name = _ :=
        SymbolList.get?_alter (Table.blankPlain n)
          (fun s => { s with references := s.references ++ [span] }) (fun _ => rfl) table.plain name
      rw [Table.record, Table.referencesTo, halter, Table.referencesTo, Table.plain?,
        PlacedUse.reference?]
      by_cases hn : n = name
      · subst hn
        cases table.plain.get? n <;> simp [Table.blankPlain]
      · simp [Table.blankPlain, hn, Ne.symm hn]

theorem referencesTo_foldl_record (uses : List PlacedUse) (table : Table) (name : String) :
    (uses.foldl Table.record table).referencesTo name =
      table.referencesTo name ++ uses.filterMap (·.reference? name) := by
  induction uses generalizing table with
  | nil => simp
  | cons use uses ih =>
      rw [List.foldl_cons, ih, referencesTo_record, List.append_assoc]
      cases h : use.reference? name <;> simp [h]

/-! ### Uses that refer to a name -/

/-- The use refers to the name, under some placeholders. -/
def Use.Refers (placeholders : List String) (name : String) : Use → Prop
  | .name t => t.value = name ∧ name ∉ placeholders
  | .precedence t => t.value = name
  | .call _ _ _ => False

instance (placeholders : List String) (name : String) (use : Use) :
    Decidable (use.Refers placeholders name) :=
  match use with
  | .name t => inferInstanceAs (Decidable (t.value = name ∧ name ∉ placeholders))
  | .precedence t => inferInstanceAs (Decidable (t.value = name))
  | .call _ _ _ => inferInstanceAs (Decidable False)

theorem placedUses_cons_eq_ok {placeholders : List String} {use : Use} {uses : List Use}
    {placed : List PlacedUse} (h : placedUses placeholders (use :: uses) = .ok placed) :
    ∃ own more, use.placed? placeholders = .ok own ∧ placedUses placeholders uses = .ok more ∧
      placed = own.toList ++ more := by
  rw [placedUses] at h
  cases hown : use.placed? placeholders with
  | error fault => rw [hown] at h; cases h
  | ok own =>
      cases hmore : placedUses placeholders uses with
      | error fault => rw [hown, hmore] at h; cases h
      | ok more =>
          rw [hown, hmore] at h
          cases h
          exact ⟨own, more, rfl, rfl, rfl⟩

theorem exists_of_map_eq_ok {ε α β : Type} {x : Except ε α} {f : α → β} {b : β}
    (h : x.map f = .ok b) : ∃ a, b = f a := by
  cases x with
  | error fault => cases h
  | ok a => exact ⟨a, (Except.ok.inj h).symm⟩

theorem Use.refers_iff {placeholders : List String} {use : Use} {own : Option PlacedUse}
    (h : use.placed? placeholders = .ok own) (name : String) :
    use.Refers placeholders name ↔ ∃ span, own = some (.reference name span) := by
  cases use with
  | name t =>
      rw [Use.placed?] at h
      split at h
      · rename_i hmem
        cases h
        simp only [Use.Refers, reduceCtorEq, exists_false, iff_false, not_and, not_not]
        rintro rfl
        exact List.contains_iff_mem.mp hmem
      · rename_i hmem
        obtain ⟨span, rfl⟩ := exists_of_map_eq_ok h
        simp only [Use.Refers, Option.some.injEq, PlacedUse.reference.injEq]
        constructor
        · exact fun hrefers => ⟨span, hrefers.1, rfl⟩
        · rintro ⟨_, rfl, _⟩
          exact ⟨rfl, fun hname => hmem (List.contains_iff_mem.mpr hname)⟩
  | precedence t =>
      obtain ⟨span, rfl⟩ := exists_of_map_eq_ok h
      simp [Use.Refers]
  | call t last names =>
      obtain ⟨span, rfl⟩ := exists_of_map_eq_ok h
      simp [Use.Refers]

/-- A body refers to a name by the uses that do. -/
theorem reference_mem_placedUses_iff {placeholders : List String} {uses : List Use}
    {placed : List PlacedUse} (h : placedUses placeholders uses = .ok placed) (name : String) :
    (∃ span, .reference name span ∈ placed) ↔ ∃ use ∈ uses, use.Refers placeholders name := by
  induction uses generalizing placed with
  | nil =>
      cases h
      simp
  | cons use uses ih =>
      obtain ⟨own, more, hown, hmore, rfl⟩ := placedUses_cons_eq_ok h
      simp only [List.mem_append, Option.mem_toList, exists_or, ih hmore, List.mem_cons,
        exists_eq_or_imp, Use.refers_iff hown]

theorem referencesTo_foldl_eq_iff {placeholders : List String} {uses : List Use}
    {placed : List PlacedUse} (h : placedUses placeholders uses = .ok placed) (table : Table)
    (name : String) :
    (placed.foldl Table.record table).referencesTo name = table.referencesTo name ↔
      ¬∃ use ∈ uses, use.Refers placeholders name := by
  rw [referencesTo_foldl_record, List.append_right_eq_self, List.filterMap_eq_nil_iff,
    ← reference_mem_placedUses_iff h, not_exists]
  constructor
  · intro hnone span hmem
    simpa [PlacedUse.reference?] using hnone _ hmem
  · intro hnone use hmem
    cases use with
    | call => rfl
    | reference n span =>
        refine if_neg ?_
        rintro rfl
        exact hnone span hmem

/-! ### Operands of `%prec` -/

theorem precedence_not_mem_arguments (x last : Token) (ts : List Token) :
    .precedence x ∉ (arguments last ts).uses := by
  refine arguments_induction (motive := fun _ _ read => .precedence x ∉ read.uses)
    ?_ ?_ ?_ ?_ ?_ ?_ ?_ ?_ last ts
  · exact fun _ => List.not_mem_nil
  · exact fun _ _ _ _ => List.not_mem_nil
  · exact fun _ _ _ _ _ => List.not_mem_nil
  · exact fun _ _ _ _ _ _ _ h => h
  · intro _ t _ read _ _ _ _ _ h
    simpa [Arguments.consName] using h
  · intro _ t _ _ inner outer _ _ _ _ _ hinner houter
    simpa [Arguments.consCall] using ⟨hinner, houter⟩
  · exact fun _ _ _ _ _ _ _ _ _ h => h
  · exact fun _ _ _ _ _ _ _ _ _ h => h

theorem precedence_mem_element_iff {x t : Token} {ts : List Token} :
    .precedence x ∈ (element t ts).1 ↔
      t.kind = .directive ∧ t.value = "%prec" ∧ x.isOperand = true ∧ ts.head? = some x := by
  cases elementForm t ts with
  | precedence hkind hvalue =>
      rw [element_operand hkind hvalue]
      simp only [List.mem_map, Option.mem_toList, Option.filter_eq_some_iff,
        Use.precedence.injEq, exists_eq_right, hkind, hvalue, true_and]
      exact and_comm
  | action hbrace =>
      have hkind : t.kind = .special := eq_of_beq (Bool.and_eq_true_iff.mp hbrace).1
      simp [element_action ts hbrace, hkind]
  | directive hkind hvalue => simp [element_directive ts hkind hvalue, hvalue]
  | name hname hcall =>
      have hkind : t.kind = .identifier := eq_of_beq hname
      simp [element_name hname hcall, hkind]
  | call hname hcall =>
      have hkind : t.kind = .identifier := eq_of_beq hname
      simp [element_call hname hcall, precedence_not_mem_arguments, hkind]
  | literal hkind => simp [element_literal ts hkind, hkind]
  | other hbrace hdirective hname hliteral =>
      simp [element_other ts hbrace hdirective hname hliteral, hdirective]

/-- The token is an operand in a body that is read from `ts`: it stands behind the word `%prec`
where an element starts. -/
def OperandAt (ts : List Token) (x : Token) : Prop :=
  ∃ directive rest, ElementAt ts (directive :: x :: rest) ∧ directive.kind = .directive ∧
    directive.value = "%prec" ∧ x.isOperand = true

theorem precedence_mem_readBody_iff {last x : Token} {ts : List Token} :
    .precedence x ∈ (readBody last ts).1 ↔ OperandAt ts x := by
  rw [mem_readBody_iff]
  constructor
  · rintro ⟨directive, rest, hat, -, huse⟩
    obtain ⟨hkind, hvalue, hoperand, hhead⟩ := precedence_mem_element_iff.mp huse
    obtain ⟨more, rfl⟩ := List.head?_eq_some_iff.mp hhead
    exact ⟨directive, more, hat, hkind, hvalue, hoperand⟩
  · rintro ⟨directive, rest, hat, hkind, hvalue, hoperand⟩
    have hgoes : directive.endsBody = false := by
      simp [Token.endsBody, Token.isEnd, Token.isSpecial, hkind]
    exact ⟨directive, x :: rest, hat, hgoes,
      precedence_mem_element_iff.mpr ⟨hkind, hvalue, hoperand, rfl⟩⟩

/-- Placeholders get no references from a body just if none of its operands of `%prec` is one.  The
uses that are recorded are all in the body, or those before the first one without a place; the
operands in the body are the tokens behind `%prec` where an element starts. -/
theorem placeholders_unreferred_iff (placeholders : List String) (last : Token) (ts : List Token)
    (table : Table) {recorded : List Use} {placed : List PlacedUse}
    (hrecorded : recorded <+: (readBody last ts).1)
    (hplaced : placedUses placeholders recorded = .ok placed) :
    ((∀ name ∈ placeholders,
        (placed.foldl Table.record table).referencesTo name = table.referencesTo name) ↔
      ∀ x, .precedence x ∈ recorded → x.value ∉ placeholders) ∧
    (∀ x, .precedence x ∈ recorded → OperandAt ts x) ∧
    (recorded = (readBody last ts).1 → ∀ x, OperandAt ts x → .precedence x ∈ recorded) := by
  simp only [referencesTo_foldl_eq_iff hplaced]
  refine ⟨⟨?_, ?_⟩, ?_, ?_⟩
  · intro hnone x hmem hplaceholder
    exact hnone x.value hplaceholder ⟨.precedence x, hmem, rfl⟩
  · rintro hoperands name hplaceholder ⟨use, hmem, hrefers⟩
    cases use with
    | name t => exact hrefers.2 hplaceholder
    | call => exact hrefers
    | precedence x =>
        refine hoperands x hmem ?_
        rw [show x.value = name from hrefers]
        exact hplaceholder
  · intro x hmem
    exact precedence_mem_readBody_iff.mp (hrecorded.subset hmem)
  · rintro rfl x hat
    exact precedence_mem_readBody_iff.mpr hat

/-- The operand of `%prec` that a use is. -/
def Use.operand? : Use → Option Token
  | .precedence x => some x
  | _ => none

/-- The colon before a body. -/
def colonToken : Token := ⟨.special, ":", 0, 0, 1⟩

/-- A body with a placeholder `p` as an element, as an argument and as an argument of that. -/
def templateBody : List Token := scan "p g(p, q(p))[p] %prec MINUS ;"

theorem templateBody_unreferred :
    ∃ placed, placedUses ["p"] (readBody colonToken templateBody).1 = .ok placed ∧
      ∀ name ∈ ["p"], (placed.foldl Table.record .empty).referencesTo name =
        Table.empty.referencesTo name := by
  have hok : (placedUses ["p"] (readBody colonToken templateBody).1).isOk = true := by
    decide +kernel
  have hoperands : ∀ use ∈ (readBody colonToken templateBody).1,
      ∀ x ∈ use.operand?, x.value ∉ ["p"] := by decide +kernel
  cases hplaced : placedUses ["p"] (readBody colonToken templateBody).1 with
  | error fault =>
      rw [hplaced] at hok
      cases hok
  | ok placed =>
      refine ⟨placed, rfl, ?_⟩
      refine (placeholders_unreferred_iff ["p"] colonToken templateBody .empty List.prefix_rfl
        hplaced).1.mpr ?_
      intro x hmem
      exact hoperands _ hmem x rfl

/-- The operand of `%prec` is recorded as a reference even if it is a placeholder. -/
theorem operand_placeholder_referred :
    ¬∀ (placeholders : List String) (last : Token) (ts : List Token) (table : Table)
      (placed : List PlacedUse), placedUses placeholders (readBody last ts).1 = .ok placed →
      ∀ name ∈ placeholders,
        (placed.foldl Table.record table).referencesTo name = table.referencesTo name := by
  intro h
  have hplaced : placedUses ["p"] (readBody colonToken (scan "%prec p ;")).1 =
      .ok [.reference "p" ⟨⟨0, 6⟩, ⟨0, 7⟩, by decide⟩] := by decide +kernel
  have hnone := h ["p"] colonToken (scan "%prec p ;") .empty _ hplaced "p" List.mem_cons_self
  exact absurd hnone (by decide)

end GrammarLens
