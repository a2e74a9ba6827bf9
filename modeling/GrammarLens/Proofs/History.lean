import GrammarLens.Proofs.Operations
import Mathlib.Data.List.Induction
import Mathlib.Data.List.Nodup

/-! # What a history leaves in a symbol table

A table is made by a list of operations, its history.  An operation speaks about one name on one
side of the table, the templates or the plain symbols, and changes no other symbol.  So a table is
known once it is known

* which names each side has: those that were mentioned there, in the order of their first mention
  (`symbols_run`);
* what the operations on one name make of one symbol, `Side.after`, which does not look at the rest
  of the table.

The symbol after a history has a closed form: the first definition counts, uses are kept in order
(`plain_after`, `template_after`).  Both are proved by induction over the last operation, which says
what a table looks like after every part of its history.  `table_of_history` puts them together. -/

namespace GrammarLens

/-! ### Lists without repetition -/

/-- A name behind others counts only if it is new. -/
theorem eraseDups_append_singleton (names : List String) (name : String) :
    (names ++ [name]).eraseDups =
      if name ∈ names then names.eraseDups else names.eraseDups ++ [name] := by
  rw [List.eraseDups_append]
  by_cases h : name ∈ names
  · simp [List.removeAll, h]
  · simp [List.removeAll, h, List.eraseDups_cons]

theorem nodup_eraseDups (names : List String) : names.eraseDups.Nodup := by
  induction names using List.reverseRecOn with
  | nil => exact List.nodup_nil
  | append_singleton names name ih =>
      rw [eraseDups_append_singleton]
      split
      · exact ih
      · rename_i hnew
        refine List.nodup_append.mpr ⟨ih, List.nodup_singleton name, ?_⟩
        intro a ha b hb
        rw [List.mem_singleton.mp hb]
        rintro rfl
        exact hnew (List.mem_eraseDups.mp ha)

namespace SymbolList

/-- Changing one symbol of a list that is given by names. -/
theorem alter_map {names : List String} {blank : Symbol} {change : Symbol → Symbol}
    {before after : String → Symbol} (hname : ∀ n, (before n).name = n)
    (hnodup : names.Nodup) (hother : ∀ n, n ≠ blank.name → after n = before n)
    (hthis : after blank.name = change (before blank.name)) :
    blank.name ∈ names → alter blank change (names.map before) = names.map after := by
  induction names with
  | nil => simp
  | cons n names ih =>
      intro hmem
      obtain ⟨hn, hnodup⟩ := List.nodup_cons.mp hnodup
      rw [List.map_cons, List.map_cons, alter, hname n]
      by_cases hb : n = blank.name
      · rw [if_pos hb, hb, hthis]
        congr 1
        refine List.map_congr_left fun m hm => ?_
        refine (hother m ?_).symm
        rintro rfl
        exact hn (hb ▸ hm)
      · rw [if_neg hb, hother n hb]
        congr 1
        exact ih hnodup ((List.mem_cons.mp hmem).resolve_left fun h => hb h.symm)

/-- Changing a symbol that a list does not have. -/
theorem alter_of_not_mem {symbols : SymbolList} {blank : Symbol} {change : Symbol → Symbol}
    (h : blank.name ∉ symbols.map Symbol.name) :
    alter blank change symbols = symbols ++ [change blank] := by
  induction symbols with
  | nil => rfl
  | cons s symbols ih =>
      rw [List.map_cons, List.mem_cons, not_or] at h
      rw [alter, if_neg fun hs => h.1 hs.symm, ih h.2]
      rfl

theorem get?_map {names : List String} {f : String → Symbol} (hname : ∀ n, (f n).name = n)
    (name : String) :
    get? (names.map f) name = if name ∈ names then some (f name) else none := by
  induction names with
  | nil => rfl
  | cons n names ih =>
      have hcons : get? ((n :: names).map f) name =
          if n = name then some (f n) else get? (names.map f) name := by
        rw [List.map_cons, get?, List.find?_cons, hname n]
        by_cases hn : n = name
        · rw [if_pos hn, beq_iff_eq.mpr hn]
        · rw [if_neg hn, beq_false_of_ne hn]
          rfl
      rw [hcons, ih]
      by_cases hn : n = name
      · simp [hn]
      · simp [hn, Ne.symm hn]

end SymbolList

namespace Table

/-! ### Sides -/

/-- The two sides of a table. -/
inductive Side where
  | template
  | plain
deriving DecidableEq, Repr

namespace Side

/-- The symbols on a side. -/
def symbols (table : Table) : Side → SymbolList
  | template => table.templates
  | plain => table.plain

/-- A symbol of a side that nothing is known about yet. -/
def blank : Side → String → Symbol
  | template => blankTemplate
  | plain => blankPlain

/-- The name on a side that an operation mentions. -/
def name? : Side → Operation → Option String
  | template, .defineTemplate name _ _ => some name
  | template, .call name _ => some name
  | template, .tagTemplate name _ => some name
  | plain, .define name _ _ => some name
  | plain, .refer name _ => some name
  | plain, .tagPlain name _ => some name
  | _, _ => none

/-- The names that a history mentions on a side, in the order of their first mention. -/
def names (side : Side) (ops : List Operation) : List String := (ops.filterMap side.name?).eraseDups

/-- What a history makes of the symbol with a name, by the operations on that name alone. -/
def after (side : Side) (ops : List Operation) (name : String) : Symbol :=
  ops.foldl (fun s op => if side.name? op = some name then op.change s else s) (side.blank name)

variable (side : Side)

@[simp] theorem blank_name (name : String) : (side.blank name).name = name := by
  cases side <;> rfl

theorem symbols_apply_of_none {op : Operation} (h : side.name? op = none) (table : Table) :
    side.symbols (table.apply op) = side.symbols table := by
  cases side with
  | template =>
      cases op with
      | defineTemplate | call | tagTemplate => cases h
      | define | refer | tagPlain | setStart => rfl
  | plain =>
      cases op with
      | define | refer | tagPlain => cases h
      | defineTemplate | call | tagTemplate | setStart => rfl

theorem symbols_apply_of_some {op : Operation} {name : String} (h : side.name? op = some name)
    (table : Table) :
    side.symbols (table.apply op) = (side.symbols table).alter (side.blank name) op.change := by
  cases side <;> cases op <;> cases h <;> rfl

theorem after_append (ops : List Operation) (op : Operation) (name : String) :
    side.after (ops ++ [op]) name =
      if side.name? op = some name then op.change (side.after ops name)
      else side.after ops name := by
  simp only [after, List.foldl_append, List.foldl_cons, List.foldl_nil]

end Side

theorem Operation.change_name (op : Operation) (s : Symbol) : (op.change s).name = s.name := by
  cases op <;> simp only [Operation.change]
  all_goals split <;> rfl

theorem Side.after_name (side : Side) (ops : List Operation) (name : String) :
    (side.after ops name).name = name := by
  induction ops using List.reverseRecOn with
  | nil => exact side.blank_name name
  | append_singleton ops op ih =>
      rw [side.after_append]
      split
      · rw [op.change_name, ih]
      · exact ih

/-- A name that is not mentioned stays blank. -/
theorem Side.after_of_not_mem (side : Side) {ops : List Operation} {name : String}
    (h : name ∉ side.names ops) : side.after ops name = side.blank name := by
  induction ops using List.reverseRecOn with
  | nil => rfl
  | append_singleton ops op ih =>
      simp only [Side.names, List.mem_eraseDups, List.filterMap_append, List.mem_append,
        List.mem_filterMap, List.mem_singleton, not_or, not_exists, not_and] at h
      obtain ⟨hops, hop⟩ := h
      rw [side.after_append, if_neg (hop op rfl)]
      refine ih ?_
      simpa only [Side.names, List.mem_eraseDups, List.mem_filterMap, not_exists, not_and]
        using hops

/-! ### The names of a side -/

theorem Side.names_append_of_none (side : Side) {op : Operation} (h : side.name? op = none)
    (ops : List Operation) : side.names (ops ++ [op]) = side.names ops := by
  have hop : [op].filterMap side.name? = [] := by simp [h]
  rw [Side.names, List.filterMap_append, hop, List.append_nil, Side.names]

theorem Side.names_append_of_some (side : Side) {op : Operation} {name : String}
    (h : side.name? op = some name) (ops : List Operation) :
    side.names (ops ++ [op]) =
      if name ∈ side.names ops then side.names ops else side.names ops ++ [name] := by
  have hop : [op].filterMap side.name? = [name] := by simp [h]
  simp only [Side.names, List.filterMap_append, hop, eraseDups_append_singleton,
    List.mem_eraseDups]

/-- A side of the table after a history: the names in the order of their first mention, each with
what the operations on it have made. -/
theorem symbols_run (side : Side) (ops : List Operation) :
    side.symbols (empty.run ops) = (side.names ops).map (side.after ops) := by
  induction ops using List.reverseRecOn with
  | nil => cases side <;> rfl
  | append_singleton ops op ih =>
      rw [run_append, run_cons, run_nil]
      cases hop : side.name? op with
      | none =>
          rw [side.symbols_apply_of_none hop, ih, side.names_append_of_none hop]
          refine List.map_congr_left fun n _ => ?_
          rw [side.after_append, if_neg (by simp [hop])]
      | some name =>
          have hother : ∀ n, n ≠ name → side.after (ops ++ [op]) n = side.after ops n := by
            intro n hn
            rw [side.after_append, if_neg]
            rw [hop]
            exact fun h => hn (Option.some.inj h).symm
          have hthis : side.after (ops ++ [op]) name = op.change (side.after ops name) := by
            rw [side.after_append, if_pos hop]
          rw [side.symbols_apply_of_some hop, ih, side.names_append_of_some hop]
          by_cases hmem : name ∈ side.names ops
          · rw [if_pos hmem]
            rw [← side.blank_name name] at hother hthis hmem
            exact SymbolList.alter_map (side.after_name ops) (nodup_eraseDups _) hother hthis hmem
          · have hnew : (side.blank name).name ∉
                ((side.names ops).map (side.after ops)).map Symbol.name := by
              simpa [Function.comp_def, side.after_name] using hmem
            rw [if_neg hmem, SymbolList.alter_of_not_mem hnew, List.map_append, List.map_singleton,
              hthis, side.after_of_not_mem hmem]
            congr 1
            refine List.map_congr_left fun n hn => (hother n ?_).symm
            rintro rfl
            exact hmem hn

theorem exists_after_of_mem (side : Side) {ops : List Operation} {s : Symbol}
    (h : s ∈ side.symbols (empty.run ops)) : ∃ name, side.after ops name = s := by
  rw [symbols_run] at h
  obtain ⟨name, -, hs⟩ := List.mem_map.mp h
  exact ⟨name, hs⟩

theorem names_run (side : Side) (ops : List Operation) :
    (side.symbols (empty.run ops)).map Symbol.name = side.names ops := by
  have hname : Symbol.name ∘ side.after ops = id := funext (side.after_name ops)
  rw [symbols_run, List.map_map, hname, List.map_id]

theorem get?_run (side : Side) (ops : List Operation) (name : String) :
    (side.symbols (empty.run ops)).get? name =
      if name ∈ side.names ops then some (side.after ops name) else none := by
  rw [symbols_run]
  exact SymbolList.get?_map (side.after_name ops) name

/-! ### The symbol after a history -/

namespace Operation

/-- The kind and the place that an operation gives to a plain name. -/
def definition? (name : String) : Operation → Option (Symbol.Kind × Definition)
  | .define n kind d => if n = name then some (kind, d) else none
  | _ => none

/-- The parameters and the place that an operation gives to a template. -/
def templateDefinition? (name : String) : Operation → Option (List String × Definition)
  | .defineTemplate n parameters d => if n = name then some (parameters, d) else none
  | _ => none

/-- The reference to a name that an operation records. -/
def reference? (name : String) : Operation → Option Span
  | .refer n span => if n = name then some span else none
  | _ => none

/-- The call of a name that an operation records. -/
def call? (name : String) : Operation → Option Call
  | .call n c => if n = name then some c else none
  | _ => none

/-- The type tag that an operation gives to a name on a side. -/
def tag? (side : Side) (name : String) : Operation → Option String
  | .tagPlain n tag => if side = .plain ∧ n = name then some tag else none
  | .tagTemplate n tag => if side = .template ∧ n = name then some tag else none
  | _ => none

end Operation

/-- A plain symbol has the kind and the place of its first definition, and all its references. -/
theorem plain_after (ops : List Operation) (name : String) :
    Side.plain.after ops name =
      { name := name
        kind := ((ops.findSome? (·.definition? name)).map Prod.fst).getD .nonterminal
        definition := (ops.findSome? (·.definition? name)).map Prod.snd
        references := ops.filterMap (·.reference? name)
        typeTag := (ops.filterMap (·.tag? .plain name)).getLast? } := by
  induction ops using List.reverseRecOn with
  | nil => rfl
  | append_singleton ops op ih =>
      rw [Side.after_append, ih]
      simp only [List.findSome?_append, List.filterMap_append]
      -- What came before the last operation matters by what it amounts to only.
      generalize ops.findSome? (·.definition? name) = first
      generalize ops.filterMap (·.reference? name) = references
      generalize ops.filterMap (·.tag? .plain name) = tags
      cases op with
      | define n kind d =>
          by_cases hn : n = name
          · cases first <;> simp [Side.name?, Operation.change, Operation.definition?,
              Operation.reference?, Operation.tag?, Symbol.isDefined, hn]
          · simp [Side.name?, Operation.definition?, Operation.reference?, Operation.tag?, hn]
      | refer n span =>
          by_cases hn : n = name
          · simp [Side.name?, Operation.change, Operation.definition?, Operation.reference?,
              Operation.tag?, hn]
          · simp [Side.name?, Operation.definition?, Operation.reference?, Operation.tag?, hn]
      | tagPlain n tag =>
          by_cases hn : n = name
          · simp [Side.name?, Operation.change, Operation.definition?, Operation.reference?,
              Operation.tag?, hn]
          · simp [Side.name?, Operation.definition?, Operation.reference?, Operation.tag?, hn]
      | defineTemplate | call | tagTemplate | setStart =>
          simp [Side.name?, Operation.definition?, Operation.reference?, Operation.tag?]

/-- A template has the parameters and the place of its first definition, and all its calls. -/
theorem template_after (ops : List Operation) (name : String) :
    Side.template.after ops name =
      { name := name
        kind := .template
        definition := (ops.findSome? (·.templateDefinition? name)).map Prod.snd
        calls := ops.filterMap (·.call? name)
        parameters := (ops.findSome? (·.templateDefinition? name)).map Prod.fst
        typeTag := (ops.filterMap (·.tag? .template name)).getLast?
        isTemplate := true } := by
  induction ops using List.reverseRecOn with
  | nil => rfl
  | append_singleton ops op ih =>
      rw [Side.after_append, ih]
      simp only [List.findSome?_append, List.filterMap_append]
      generalize ops.findSome? (·.templateDefinition? name) = first
      generalize ops.filterMap (·.call? name) = calls
      generalize ops.filterMap (·.tag? .template name) = tags
      cases op with
      | defineTemplate n parameters d =>
          by_cases hn : n = name
          · cases first <;> simp [Side.name?, Operation.change, Operation.templateDefinition?,
              Operation.call?, Operation.tag?, Symbol.isDefined, hn]
          · simp [Side.name?, Operation.templateDefinition?, Operation.call?, Operation.tag?, hn]
      | call n c =>
          by_cases hn : n = name
          · simp [Side.name?, Operation.change, Operation.templateDefinition?, Operation.call?,
              Operation.tag?, hn]
          · simp [Side.name?, Operation.templateDefinition?, Operation.call?, Operation.tag?, hn]
      | tagTemplate n tag =>
          by_cases hn : n = name
          · simp [Side.name?, Operation.change, Operation.templateDefinition?, Operation.call?,
              Operation.tag?, hn]
          · simp [Side.name?, Operation.templateDefinition?, Operation.call?, Operation.tag?, hn]
      | define | refer | tagPlain | setStart =>
          simp [Side.name?, Operation.templateDefinition?, Operation.call?, Operation.tag?]

/-! ### Histories of definitions and uses -/

/-- Whether an operation records a definition or a use.  The others add to a symbol that is there
already, or name the start. -/
def Operation.records : Operation → Bool
  | .define _ _ _ | .defineTemplate _ _ _ | .refer _ _ | .call _ _ => true
  | .tagPlain _ _ | .tagTemplate _ _ | .setStart _ => false

section Records

variable {ops : List Operation} (h : ∀ op ∈ ops, op.records = true)
include h

theorem tags_eq_nil (side : Side) (name : String) : ops.filterMap (·.tag? side name) = [] := by
  refine List.filterMap_eq_nil_iff.mpr fun op hop => ?_
  have hrecords := h op hop
  cases op with
  | tagPlain | tagTemplate => cases hrecords
  | _ => rfl

theorem mem_plain_names_iff (name : String) :
    name ∈ Side.plain.names ops ↔
      ∃ op ∈ ops, (∃ kind d, op = .define name kind d) ∨ ∃ span, op = .refer name span := by
  simp only [Side.names, List.mem_eraseDups, List.mem_filterMap]
  constructor
  · rintro ⟨op, hop, hname⟩
    refine ⟨op, hop, ?_⟩
    have hrecords := h op hop
    cases op with
    | define n kind d => exact Or.inl ⟨kind, d, by rw [Option.some.inj hname]⟩
    | refer n span => exact Or.inr ⟨span, by rw [Option.some.inj hname]⟩
    | tagPlain => cases hrecords
    | defineTemplate | call | tagTemplate | setStart => cases hname
  · rintro ⟨op, hop, ⟨kind, d, rfl⟩ | ⟨span, rfl⟩⟩
    · exact ⟨_, hop, rfl⟩
    · exact ⟨_, hop, rfl⟩

theorem mem_template_names_iff (name : String) :
    name ∈ Side.template.names ops ↔
      ∃ op ∈ ops, (∃ parameters d, op = .defineTemplate name parameters d) ∨
        ∃ c, op = .call name c := by
  simp only [Side.names, List.mem_eraseDups, List.mem_filterMap]
  constructor
  · rintro ⟨op, hop, hname⟩
    refine ⟨op, hop, ?_⟩
    have hrecords := h op hop
    cases op with
    | defineTemplate n parameters d =>
        exact Or.inl ⟨parameters, d, by rw [Option.some.inj hname]⟩
    | call n c => exact Or.inr ⟨c, by rw [Option.some.inj hname]⟩
    | tagTemplate => cases hrecords
    | define | refer | tagPlain | setStart => cases hname
  · rintro ⟨op, hop, ⟨parameters, d, rfl⟩ | ⟨c, rfl⟩⟩
    · exact ⟨_, hop, rfl⟩
    · exact ⟨_, hop, rfl⟩

end Records

theorem get?_run_isSome (side : Side) (ops : List Operation) (name : String) :
    ((side.symbols (empty.run ops)).get? name).isSome ↔ name ∈ side.names ops := by
  rw [get?_run]
  by_cases hname : name ∈ side.names ops
  · simp [hname]
  · simp [hname]

theorem eq_after_of_get?_run (side : Side) {ops : List Operation} {name : String} {s : Symbol}
    (h : (side.symbols (empty.run ops)).get? name = some s) : s = side.after ops name := by
  rw [get?_run] at h
  split at h
  · exact (Option.some.inj h).symm
  · cases h

/-- Looking up the names of a side one after the other lists the side. -/
theorem symbols_run_eq_filterMap (side : Side) (ops : List Operation) :
    side.symbols (empty.run ops) =
      (side.names ops).filterMap (side.symbols (empty.run ops)).get? := by
  have hget : ∀ name ∈ side.names ops,
      (side.symbols (empty.run ops)).get? name = some (side.after ops name) := by
    intro name hname
    rw [get?_run, if_pos hname]
  rw [List.filterMap_congr hget, List.filterMap_eq_map', symbols_run]

/-- The table that a history of definitions and uses leaves.  A plain name is known if it was
defined or referred to; it has the kind and the place of its first definition, or none and the kind
of a nonterminal, and all its references in order.  A template is known if it was defined or called;
it has the place and the parameters of its first definition, or none, and all its calls in order.
Templates are listed before plain symbols, on each side in the order of the first mention and each
name once. -/
theorem table_of_history (ops : List Operation) (h : ∀ op ∈ ops, op.records = true)
    (name : String) :
    (((empty.run ops).plain? name).isSome ↔
      ∃ op ∈ ops, (∃ kind d, op = .define name kind d) ∨ ∃ span, op = .refer name span) ∧
    (∀ s, (empty.run ops).plain? name = some s → s =
      { name := name
        kind := ((ops.findSome? (·.definition? name)).map Prod.fst).getD .nonterminal
        definition := (ops.findSome? (·.definition? name)).map Prod.snd
        references := ops.filterMap (·.reference? name)
        calls := []
        parameters := none
        typeTag := none
        isTemplate := false }) ∧
    (((empty.run ops).template? name).isSome ↔
      ∃ op ∈ ops, (∃ parameters d, op = .defineTemplate name parameters d) ∨
        ∃ c, op = .call name c) ∧
    (∀ s, (empty.run ops).template? name = some s → s =
      { name := name
        kind := .template
        definition := (ops.findSome? (·.templateDefinition? name)).map Prod.snd
        references := []
        calls := ops.filterMap (·.call? name)
        parameters := (ops.findSome? (·.templateDefinition? name)).map Prod.fst
        typeTag := none
        isTemplate := true }) ∧
    (empty.run ops).symbols =
      (ops.filterMap Side.template.name?).eraseDups.filterMap (empty.run ops).template? ++
        (ops.filterMap Side.plain.name?).eraseDups.filterMap (empty.run ops).plain? ∧
    (empty.run ops).symbols.map Symbol.name =
      (ops.filterMap Side.template.name?).eraseDups ++
        (ops.filterMap Side.plain.name?).eraseDups ∧
    (ops.filterMap Side.template.name?).eraseDups.Nodup ∧
    (ops.filterMap Side.plain.name?).eraseDups.Nodup := by
  refine ⟨?_, ?_, ?_, ?_, ?_, ?_, nodup_eraseDups _, nodup_eraseDups _⟩
  · exact (get?_run_isSome .plain ops name).trans (mem_plain_names_iff h name)
  · intro s hs
    rw [eq_after_of_get?_run .plain hs, plain_after, tags_eq_nil h]
    rfl
  · exact (get?_run_isSome .template ops name).trans (mem_template_names_iff h name)
  · intro s hs
    rw [eq_after_of_get?_run .template hs, template_after, tags_eq_nil h]
    rfl
  · exact congrArg₂ (· ++ ·) (symbols_run_eq_filterMap .template ops)
      (symbols_run_eq_filterMap .plain ops)
  · rw [symbols, List.map_append]
    exact congrArg₂ (· ++ ·) (names_run .template ops) (names_run .plain ops)

/-- The first four characters of a line. -/
def lineHead (line : Nat) : Span := ⟨⟨line, 0⟩, ⟨line, 4⟩, Or.inr ⟨rfl, Nat.zero_le 4⟩⟩

/-- A history in which uses come before definitions, one name stands on both sides, and it is
defined twice on each. -/
def crossedHistory : List Operation :=
  [.refer "list" (lineHead 0), .call "list" ⟨lineHead 1, ["item"]⟩,
    .define "list" .rule ⟨lineHead 2, lineHead 2⟩, .refer "item" (lineHead 3),
    .defineTemplate "list" ["X"] ⟨lineHead 4, lineHead 4⟩,
    .define "list" .token ⟨lineHead 5, lineHead 5⟩,
    .defineTemplate "list" ["Y", "Z"] ⟨lineHead 6, lineHead 6⟩, .refer "list" (lineHead 7)]

theorem crossedHistory_table :
    (∀ op ∈ crossedHistory, op.records = true) ∧
      (empty.run crossedHistory).plain? "list" =
        some { name := "list", kind := .rule, definition := some ⟨lineHead 2, lineHead 2⟩,
               references := [lineHead 0, lineHead 7] } ∧
      (empty.run crossedHistory).template? "list" =
        some { name := "list", kind := .template, definition := some ⟨lineHead 4, lineHead 4⟩,
               calls := [⟨lineHead 1, ["item"]⟩], parameters := some ["X"], isTemplate := true } ∧
      (empty.run crossedHistory).symbols.map Symbol.name = ["list", "list", "item"] := by
  have hrecords : ∀ op ∈ crossedHistory, op.records = true := by decide
  obtain ⟨hplain, hplain', htemplate, htemplate', -, hnames, -⟩ :=
    table_of_history crossedHistory hrecords "list"
  refine ⟨hrecords, ?_, ?_, ?_⟩
  · obtain ⟨s, hs⟩ := Option.isSome_iff_exists.mp
      (hplain.mpr ⟨.refer "list" (lineHead 0), by simp [crossedHistory], Or.inr ⟨_, rfl⟩⟩)
    rw [hs, hplain' s hs]
    rfl
  · obtain ⟨s, hs⟩ := Option.isSome_iff_exists.mp
      (htemplate.mpr ⟨.call "list" ⟨lineHead 1, ["item"]⟩, by simp [crossedHistory],
        Or.inr ⟨_, rfl⟩⟩)
    rw [hs, htemplate' s hs]
    rfl
  · rw [hnames]
    rfl

end Table

end GrammarLens
