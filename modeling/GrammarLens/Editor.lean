import GrammarLens.Symbol.Table

/-! # What an editor is shown

The defined symbols of a grammar file as an editor lists them, and the places that it is sent.  An
editor is spoken to by a protocol that is not part of this library: it has its own positions, and
may not have one for every place.  What is known of it is an `Editor`, a parameter of everything
that sends places. -/

namespace GrammarLens

/-! ### Outline -/

/-- A line of an outline.  Its kind is the number under which editors know it. -/
structure OutlineEntry where
  name : String
  detail : String
  kind : Nat
  span : Span
  nameSpan : Span
deriving DecidableEq, Repr

/-- The number under which editors know a kind of symbol. -/
def Symbol.Kind.outlineNumber : Symbol.Kind → Nat
  | token => 14
  | type => 26
  | rule => 12
  | nonterminal => 12
  | template => 6
  | union => 23
  | start => 2

/-- The outline entry of a symbol, if it is defined. -/
def Symbol.outlined? (s : Symbol) : Option OutlineEntry :=
  s.definition.map fun d => ⟨s.displayName, s.detail, s.kind.outlineNumber, d.span, d.nameSpan⟩

/-- The outline of a grammar file, templates first. -/
def Table.outline (table : Table) : List OutlineEntry := table.symbols.filterMap (·.outlined?)

/-! ### Places for an editor -/

/-- What the protocol of an editor makes of a position: nothing, if it can express the position, and
else the reason why it cannot. -/
structure Editor (ε : Type) where
  position : Position → Except ε Unit

namespace Editor

variable {ε : Type} (editor : Editor ε)

/-- An editor that can express every position. -/
def unbounded : Editor Empty := ⟨fun _ => .ok ()⟩

/-- Expresses spans one after the other, of each the start before the stop. -/
def express : List Span → Except ε Unit
  | [] => .ok ()
  | s :: spans => do
    editor.position s.start
    editor.position s.stop
    express spans

/-- The outline of a grammar file, if the editor can express it. -/
def outline (table : Table) : Except ε (List OutlineEntry) := do
  editor.express (table.outline.flatMap fun e => [e.span, e.nameSpan])
  return table.outline

/-- The editor can express both ends of a span. -/
def Takes (s : Span) : Prop := editor.position s.start = .ok () ∧ editor.position s.stop = .ok ()

theorem express_eq_ok_iff {spans : List Span} :
    editor.express spans = .ok () ↔ ∀ s ∈ spans, editor.Takes s := by
  induction spans with
  | nil => simp [express]
  | cons s spans ih =>
    rw [express, List.forall_mem_cons, ← ih, Takes]
    cases hstart : editor.position s.start with
    | error e => simp [bind, Except.bind]
    | ok _ =>
      cases hstop : editor.position s.stop with
      | error e => simp [bind, Except.bind]
      | ok _ => simp [bind, Except.bind]

theorem exists_express_eq_error {spans : List Span} (h : ¬∀ s ∈ spans, editor.Takes s) :
    ∃ e, editor.express spans = .error e := by
  cases hsent : editor.express spans with
  | error e => exact ⟨e, rfl⟩
  | ok _ => exact absurd (editor.express_eq_ok_iff.mp hsent) h

end Editor

end GrammarLens
