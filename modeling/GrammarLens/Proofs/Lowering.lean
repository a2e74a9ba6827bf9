import GrammarLens.Proofs.Definitions
import GrammarLens.Proofs.Likeness

/-! # Texts under other lines

Lines above a text move its tokens down and change nothing else about them (`scan_below`).  Reading
takes the same course on tokens that stand lower, so what it says about symbols is the same with
lower spans (`operations_lower`).  All of this is stated for any number of lines; for spans it needs
placed tokens, because a negative line that is moved may count as another one. -/

namespace GrammarLens

/-! ### Moving down -/

/-- The position some lines below. -/
def Position.lower (k : Nat) (p : Position) : Position := ⟨p.line + k, p.column⟩

theorem Position.lower_le_lower (k : Nat) {p q : Position} : p.lower k ≤ q.lower k ↔ p ≤ q := by
  simp only [Position.le_def, Position.lower]
  omega

/-- The span some lines below. -/
def Span.lower (k : Nat) (s : Span) : Span :=
  ⟨s.start.lower k, s.stop.lower k, (Position.lower_le_lower k).mpr s.start_le_stop⟩

/-- The definition some lines below. -/
def Definition.lower (k : Nat) (d : Definition) : Definition := ⟨d.span.lower k, d.nameSpan.lower k⟩

/-- The call some lines below. -/
def Call.lower (k : Nat) (c : Call) : Call := ⟨c.span.lower k, c.arguments⟩

/-- The symbol with all its places some lines below. -/
def Symbol.lower (k : Nat) (s : Symbol) : Symbol :=
  { s with
    definition := s.definition.map (Definition.lower k)
    references := s.references.map (Span.lower k)
    calls := s.calls.map (Call.lower k) }

/-- The token some lines below. -/
def Token.lower (k : Nat) (t : Token) : Token := { t with line := t.line + k }

@[simp] theorem Token.lower_value (k : Nat) (t : Token) : (t.lower k).value = t.value := rfl

/-- The operation with its places some lines below. -/
def Table.Operation.lower (k : Nat) : Table.Operation → Table.Operation
  | .define name kind d => .define name kind (d.lower k)
  | .defineTemplate name parameters d => .defineTemplate name parameters (d.lower k)
  | .refer name s => .refer name (s.lower k)
  | .call name c => .call name (c.lower k)
  | .tagPlain name tag => .tagPlain name tag
  | .tagTemplate name tag => .tagTemplate name tag
  | .setStart name => .setStart name

variable (k : Nat)

theorem Symbol.isDefined_lower (s : Symbol) : (s.lower k).isDefined = s.isDefined :=
  Option.isSome_map

theorem Table.Operation.change_lower (op : Table.Operation) (s : Symbol) :
    (op.lower k).change (s.lower k) = (op.change s).lower k := by
  cases op with
  | define | defineTemplate =>
      simp only [Table.Operation.lower, Table.Operation.change, Symbol.isDefined_lower]
      split <;> rfl
  | refer | call =>
      simp only [Table.Operation.lower, Table.Operation.change, Symbol.lower, List.map_append]
      rfl
  | tagPlain | tagTemplate | setStart => rfl

namespace Token

variable {t : Token}

theorem Placed.toNat_line_lower (h : t.Placed) : (t.lower k).line.toNat = t.line.toNat + k := by
  have := h.line
  simp only [lower]
  omega

theorem Placed.start_lower (h : t.Placed) : (t.lower k).start = t.start.lower k := by
  simp only [start, Position.lower, h.toNat_line_lower]
  rfl

theorem Placed.stop_lower (h : t.Placed) : (t.lower k).stop = t.stop.lower k := by
  simp only [stop, Position.lower, h.toNat_line_lower]
  rfl

theorem Placed.place_lower (h : t.Placed) : (t.lower k).place = t.place.lower k := by
  simp only [place, Span.lower, h.start_lower, h.stop_lower]

theorem Placed.through_lower {last : Token} (h : t.Placed) (hlast : last.Placed) :
    (t.lower k).through (last.lower k) = (t.through last).lower k := by
  unfold through
  simp only [h.start_lower, hlast.stop_lower, Position.lower_le_lower]
  split
  · rfl
  · exact h.place_lower k

end Token

/-! ### Reading -/

/-- The second token is the first one, which has a place, some lines below. -/
def Lowered (t u : Token) : Prop := t.Placed ∧ u = t.lower k

theorem likeness_lowered : Likeness (Lowered k) (Lowered k) where
  kind := fun ⟨_, h⟩ => h ▸ rfl
  value := fun ⟨_, h⟩ => h ▸ rfl
  line := by
    rintro t _ t' _ ⟨-, rfl⟩ ⟨-, rfl⟩
    simp only [Token.lower]
    omega
  keep h _ := h

theorem flatMap_of_forall₂ {α β γ δ : Type} {P : α → β → Prop} {f : α → List γ} {g : β → List δ}
    {move : γ → δ} (hmove : ∀ {a b}, P a b → g b = (f a).map move) {as : List α} {bs : List β}
    (h : List.Forall₂ P as bs) : bs.flatMap g = (as.flatMap f).map move := by
  induction h with
  | nil => rfl
  | cons hab _ ih => rw [List.flatMap_cons, List.flatMap_cons, List.map_append, hmove hab, ih]

variable {k}

theorem Use.Like.operations_lower {use use' : Use} (h : Use.Like (Lowered k) use use')
    (placeholders : List String) :
    use'.operations placeholders = (use.operations placeholders).map (·.lower k) := by
  cases h with
  | name ht =>
      obtain ⟨hplaced, rfl⟩ := ht
      simp only [Use.operations, hplaced.place_lower, Token.lower_value]
      split <;> rfl
  | precedence ht =>
      obtain ⟨hplaced, rfl⟩ := ht
      simp only [Use.operations, hplaced.place_lower]
      rfl
  | call arguments ht hlast =>
      obtain ⟨hplaced, rfl⟩ := ht
      obtain ⟨hlast, rfl⟩ := hlast
      simp only [Use.operations, hplaced.through_lower k hlast]
      rfl

theorem Rule.Like.definition_lower {r q : Rule} (h : Rule.Like (Lowered k) r q) :
    q.definition = r.definition.lower k := by
  obtain ⟨hfirst, hfirst'⟩ := h.first
  obtain ⟨hname, hname'⟩ := h.name
  have hbody := h.body
  simp only [Rule.definition, Definition.lower, hname', hfirst', hname.place_lower]
  generalize r.body = b at hbody
  generalize q.body = c at hbody
  cases hbody with
  | none => rfl
  | some hb =>
      obtain ⟨hlast, hlast'⟩ := hb.last
      simp only [Option.elim, hlast', hfirst.through_lower k hlast]

theorem Rule.Like.defining_lower {r q : Rule} (h : Rule.Like (Lowered k) r q) :
    q.defining = r.defining.lower k := by
  have hname : q.name.value = r.name.value := h.name.2 ▸ rfl
  simp only [Rule.defining, h.parameters, h.definition_lower, hname]
  cases r.parameters <;> rfl

theorem Rule.Like.tagging_lower {r q : Rule} (h : Rule.Like (Lowered k) r q) :
    q.tagging = r.tagging.map (·.lower k) := by
  have hname : q.name.value = r.name.value := h.name.2 ▸ rfl
  simp only [Rule.tagging, h.parameters, h.typeTag, hname]
  split <;> rfl

theorem Item.Like.operations_lower {i j : Item} (h : Item.Like (Lowered k) i j) :
    j.operations = i.operations.map (·.lower k) := by
  cases h with
  | symbol kind tag ht =>
      obtain ⟨hplaced, rfl⟩ := ht
      simp only [Item.operations, hplaced.place_lower]
      cases tag <;> rfl
  | start ht =>
      obtain ⟨hplaced, rfl⟩ := ht
      simp only [Item.operations, hplaced.place_lower]
      rfl
  | @rule r q hr =>
      have huses := flatMap_of_forall₂
        (fun hu => hu.operations_lower (r.parameters.getD [])) hr.uses
      simp only [Item.operations, hr.parameters, hr.defining_lower, hr.tagging_lower, huses,
        List.map_cons, List.map_append]

/-- What tokens say about symbols moves down with them. -/
theorem operations_lower (place : Section) {ts : List Token} (h : ∀ t ∈ ts, t.Placed) :
    (readItems place (ts.map (Token.lower k))).1.flatMap Item.operations =
      ((readItems place ts).1.flatMap Item.operations).map (·.lower k) := by
  have hts : List.Forall₂ (Lowered k) ts (ts.map (Token.lower k)) :=
    List.forall₂_map_right_iff.mpr (List.forall₂_same.mpr fun t ht => ⟨h t ht, rfl⟩)
  exact flatMap_of_forall₂ (fun hi => hi.operations_lower)
    (readItems_like (likeness_lowered k) place hts).1

/-! ### Scanning -/

variable (k)

theorem place_lower (n column : Nat) (pieces : List Piece) :
    place (n + k) column pieces = (place n column pieces).map (Token.lower k) := by
  induction pieces generalizing column with
  | nil => rfl
  | cons piece pieces ih =>
      cases piece with
      | token kind value width =>
          simp only [place, ih, List.map_cons, Token.lower, Int.natCast_add]
      | comment | dropped => exact ih _

theorem scanLines_lower (n : Nat) (lines : List (List Char)) :
    scanLines (n + k) lines = (scanLines n lines).map (Token.lower k) := by
  induction lines generalizing n with
  | nil => rfl
  | cons line lines ih =>
      have hline : scanLine (n + k) line = (scanLine n line).map (Token.lower k) :=
        place_lower k n 0 (cut line)
      have hnext : n + k + 1 = n + 1 + k := by omega
      rw [scanLines, scanLines, List.map_append, hline, hnext, ih]

theorem endToken_append (above : List (List Char)) {lines : List (List Char)} (h : lines ≠ []) :
    endToken (above ++ lines) = (endToken lines).lower above.length := by
  have hpos : 0 < lines.length := List.length_pos_iff.mpr h
  have hline : ((above ++ lines).length - 1 : Nat) = lines.length - 1 + above.length := by
    rw [List.length_append]
    omega
  have hlast : (above ++ lines).getLast? = lines.getLast? := by
    rw [List.getLast?_append_of_ne_nil _ h]
  simp only [endToken, Token.lower, hline, hlast, Int.natCast_add]

/-- A text below others has its tokens below theirs. -/
theorem scan_below (above below : String) :
    scan (above ++ "\n" ++ below) =
      scanLines 0 (splitLines above.toList) ++
        (scan below).map (Token.lower (splitLines above.toList).length) := by
  have hlines : splitLines (above ++ "\n" ++ below).toList =
      splitLines above.toList ++ splitLines below.toList := by
    rw [String.toList_append, String.toList_append, List.append_assoc]
    exact splitLines_append above.toList below.toList
  rw [scan, scan, hlines, scanLines_append, scanLines_lower,
    endToken_append _ (splitLines_ne_nil below.toList), List.map_append, List.append_assoc]
  rfl

end GrammarLens
