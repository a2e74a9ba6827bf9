import GrammarLens.Analysis
import GrammarLens.Settings
import GrammarLens.Proofs.Definitions

/-! # Settings only silence

Settings change an analysis in two ways.  They add to the lists of a policy, always behind what is
there (`Settings.policy_extends`), so each name that was left alone still is, unless an addition
cannot be tried and the rule fails.  And they give the rules a severity and a switch, but neither a
new kind nor a new check (`Validator.make_restyled`).

A rule under such a policy finds a sublist of what it finds without the additions
(`Lint.rules_narrow`), so no setting adds, moves or rewords a problem
(`settings_only_silence`). -/

namespace GrammarLens

theorem bind_eq_ok {ε α β : Type} {x : Except ε α} {f : α → Except ε β} {b : β}
    (h : x >>= f = .ok b) : ∃ a, x = .ok a ∧ f a = .ok b := by
  cases x with
  | error e => nomatch h
  | ok a => exact ⟨a, rfl, h⟩

/-! ### Rules as they are set -/

namespace Lint

/-- The second rule looks for the same problems in the same way; its severity and its switch may
differ. -/
structure Rule.Restyled (rule rule' : Rule) : Prop where
  kind : rule'.kind = rule.kind
  check : rule'.check = rule.check

theorem Rule.withLevel_restyled {rule rule' : Rule} {settings : Json} {notices : List Notice}
    (h : rule.withLevel settings = .ok (notices, rule')) : rule.Restyled rule' := by
  obtain ⟨mentioned, -, h⟩ := bind_eq_ok h
  cases mentioned with
  | false =>
      cases h
      exact ⟨rfl, rfl⟩
  | true =>
      obtain ⟨level, -, h⟩ := bind_eq_ok h
      split at h
      · cases h
        exact ⟨rfl, rfl⟩
      · cases h
        exact ⟨rfl, rfl⟩

theorem Rule.withSwitch_restyled {rule rule' : Rule} {settings : Json}
    (h : rule.withSwitch settings = .ok rule') : rule.Restyled rule' := by
  obtain ⟨mentioned, -, h⟩ := bind_eq_ok h
  cases mentioned with
  | false =>
      cases h
      exact ⟨rfl, rfl⟩
  | true =>
      obtain ⟨switch, -, h⟩ := bind_eq_ok h
      cases h
      exact ⟨rfl, rfl⟩

theorem Rule.configured_restyled {rule rule' : Rule} {policy : Policy} {settings : Json}
    {notices : List Notice} (h : rule.configured policy settings = .ok (notices, rule')) :
    rule.Restyled rule' := by
  unfold Rule.configured at h
  -- the policy may have switched the rule off, which the settings of the rule can undo
  extract_lets switched at h
  have hswitched : rule.Restyled switched := by
    simp only [switched]
    split
    · exact ⟨rfl, rfl⟩
    · exact ⟨rfl, rfl⟩
  clear_value switched
  split at h
  · obtain ⟨mentioned, -, h⟩ := bind_eq_ok h
    cases mentioned with
    | false =>
        cases h
        exact hswitched
    | true =>
        obtain ⟨own, -, h⟩ := bind_eq_ok h
        obtain ⟨⟨told, leveled⟩, hlevel, h⟩ := bind_eq_ok h
        obtain ⟨final, hfinal, h⟩ := bind_eq_ok h
        cases h
        have hleveled := Rule.withLevel_restyled hlevel
        have hlast := Rule.withSwitch_restyled hfinal
        exact ⟨hlast.kind.trans (hleveled.kind.trans hswitched.kind),
          hlast.check.trans (hleveled.check.trans hswitched.check)⟩
  · cases h
    exact hswitched

end Lint

namespace Validator

theorem configure_restyled {policy : Policy} {settings : Json} {rules rules' : List Lint.Rule}
    (h : (configure policy settings rules).2 = .ok rules') :
    List.Forall₂ Lint.Rule.Restyled rules rules' := by
  induction rules generalizing rules' with
  | nil =>
      cases h
      exact .nil
  | cons rule rules ih =>
      simp only [configure] at h
      split at h
      · nomatch h
      · rename_i notices rule' hrule
        cases hrest : (configure policy settings rules).2 with
        | error fault => simp only [hrest, Except.map, reduceCtorEq] at h
        | ok rest =>
            simp only [hrest, Except.map, Except.ok.injEq] at h
            subst h
            exact .cons (Lint.Rule.configured_restyled hrule) (ih hrest)

/-- A validator follows the policy it was made for, with the rules in their order and none of them
with another kind or check. -/
theorem make_restyled {policy : Policy} {settings : Json} {validator : Validator}
    (h : (make policy settings).2 = .ok validator) :
    validator.policy = policy ∧ List.Forall₂ Lint.Rule.Restyled Lint.rules validator.rules := by
  simp only [make] at h
  cases hrules : (configure policy settings Lint.rules).2 with
  | error fault => simp only [hrules, Except.map, reduceCtorEq] at h
  | ok rules =>
      simp only [hrules, Except.map, Except.ok.injEq] at h
      subst h
      exact ⟨rfl, configure_restyled hrules⟩

theorem make_default : (make .default (.object [])).2 = .ok ⟨.default, Lint.rules⟩ := rfl

end Validator

theorem analyze_eq {policy : Policy} {settings : Json} {validator : Validator}
    (h : (Validator.make policy settings).2 = .ok validator) {text : String} {grammar : Grammar}
    (hgrammar : Grammar.ofText text = .ok grammar) :
    (analyze policy settings text).2 =
      .ok ⟨text, grammar.table, (validator.run grammar.table).2⟩ := by
  rcases hmake : Validator.make policy settings with ⟨notices, made⟩
  rw [hmake] at h
  subst h
  simp only [analyze, hgrammar, hmake]

/-! ### Policies with additions -/

namespace Policy

/-- The first policy has the lists of names of the second, and further names behind them. -/
structure Extends (policy base : Policy) : Prop where
  builtins : base.builtins <+: policy.builtins
  placeholders : base.placeholders <+: policy.placeholders
  tokenStarts : base.tokenStarts <+: policy.tokenStarts

theorem addNew_extends (values : List Json) (v : Json) : values <+: addNew values v := by
  unfold addNew
  split
  · exact List.prefix_refl values
  · exact List.prefix_append values [v]

theorem foldl_addNew_extends (values additions : List Json) :
    values <+: additions.foldl addNew values := by
  induction additions generalizing values with
  | nil => exact List.prefix_refl values
  | cons v additions ih => exact (addNew_extends values v).trans (ih (addNew values v))

theorem addKeys_extends {keys values out : List Json} (h : addKeys keys values = .ok out) :
    keys <+: out := by
  induction values generalizing keys with
  | nil =>
      cases h
      exact List.prefix_refl _
  | cons v values ih =>
      obtain ⟨key, -, h⟩ := bind_eq_ok h
      exact (addNew_extends keys key).trans (ih h)

theorem extend_extends {keys out : List Json} {v : Json} (h : extend keys v = .ok out) :
    keys <+: out := by
  obtain ⟨values, -, h⟩ := bind_eq_ok h
  exact addKeys_extends h

theorem ofSettings_extends {settings : LintSettings} {policy : Policy}
    (h : ofSettings settings = .ok policy) : policy.Extends default := by
  obtain ⟨disabled, -, h⟩ := bind_eq_ok h
  obtain ⟨builtins, hbuiltins, h⟩ := bind_eq_ok h
  obtain ⟨placeholders, hplaceholders, h⟩ := bind_eq_ok h
  obtain ⟨starts, -, h⟩ := bind_eq_ok h
  cases h
  exact ⟨extend_extends hbuiltins, extend_extends hplaceholders,
    foldl_addNew_extends default.tokenStarts starts⟩

end Policy

theorem Settings.policy_extends {settings : Settings} {policy : Policy}
    (h : settings.policy = .ok policy) : policy.Extends .default := by
  unfold Settings.policy at h
  extract_lets finish at h
  -- the options may switch a rule off, which leaves the lists of names as they are
  have hfinish : ∀ {base policy : Policy}, finish base = .ok policy → base.Extends .default →
      policy.Extends .default := by
    intro base policy hpolicy hbase
    cases hpolicy
    split
    · split
      · exact hbase
      · exact ⟨hbase.builtins, hbase.placeholders, hbase.tokenStarts⟩
    · exact hbase
  split at h
  · obtain ⟨base, hbase, h⟩ := bind_eq_ok h
    exact hfinish h (Policy.ofSettings_extends hbase)
  · exact hfinish h ⟨List.prefix_refl _, List.prefix_refl _, List.prefix_refl _⟩

namespace Policy

theorem lists_of_extends {base names : List Json} (h : base <+: names) {name : String}
    (hname : lists base name = true) : lists names name = true := by
  obtain ⟨v, hv, hname⟩ := List.any_eq_true.mp hname
  exact List.any_eq_true.mpr ⟨v, h.subset hv, hname⟩

/-- A start that is found is found before all additions, also before those that cannot be tried. -/
theorem startsWithOne_of_extends {cs : List Char} {base starts : List Json} (h : base <+: starts)
    (hbase : startsWithOne cs base = .ok true) : startsWithOne cs starts = .ok true := by
  obtain ⟨more, rfl⟩ := h
  fun_induction startsWithOne cs base with
  | case1 => nomatch hbase
  | case2 start base hstart => exact if_pos hstart
  | case3 start base hstart ih =>
      rw [List.cons_append, startsWithOne, if_neg hstart]
      exact ih hbase
  | case4 => nomatch hbase

theorem looksLikeToken_of_extends {policy base : Policy} (h : policy.Extends base) {name : String}
    (hbase : base.looksLikeToken name = .ok true) : policy.looksLikeToken name = .ok true := by
  unfold looksLikeToken at hbase ⊢
  split
  · rfl
  · rename_i hcapitals
    rw [if_neg hcapitals] at hbase
    exact startsWithOne_of_extends h.tokenStarts hbase

/-- What a policy excuses is excused by a longer one, if that one has an answer. -/
theorem excuses_of_extends {policy base : Policy} (h : policy.Extends base) {known : List String}
    {name : String} {excused : Bool} (hexcused : policy.excuses known name = .ok excused)
    (hbase : base.excuses known name = .ok true) : excused = true := by
  unfold excuses at hexcused hbase
  split at hexcused
  · cases hexcused
    rfl
  · rename_i hopen
    obtain ⟨token, htoken, hexcused⟩ := bind_eq_ok hexcused
    cases hexcused
    have hbuiltin : ¬(known.contains name || isLiteral name || base.isBuiltin name) = true := by
      intro hearly
      apply hopen
      rw [Bool.or_eq_true] at hearly ⊢
      exact hearly.imp_right (lists_of_extends h.builtins)
    rw [if_neg hbuiltin] at hbase
    obtain ⟨token', htoken', hbase⟩ := bind_eq_ok hbase
    have hor : (token' || base.isPlaceholder name) = true := Except.ok.inj hbase
    rw [Bool.or_eq_true] at hor ⊢
    rcases hor with rfl | hplaceholder
    · rw [looksLikeToken_of_extends h htoken'] at htoken
      exact Or.inl (Except.ok.inj htoken).symm
    · exact Or.inr (lists_of_extends h.placeholders hplaceholder)

/-- Each start of the names of tokens can be tried. -/
def Usable (policy : Policy) : Prop := ∀ v ∈ policy.tokenStarts, v.text?.isSome = true

theorem startsWithOne_of_texts (cs : List Char) {starts : List Json}
    (h : ∀ v ∈ starts, v.text?.isSome = true) : ∃ found, startsWithOne cs starts = .ok found := by
  fun_induction startsWithOne cs starts with
  | case1 => exact ⟨false, rfl⟩
  | case2 => exact ⟨true, rfl⟩
  | case3 start starts hstart ih => exact ih fun v hv => h v (List.mem_cons_of_mem _ hv)
  | case4 v starts hv =>
      have htext := h v List.mem_cons_self
      cases v with
      | text start => exact absurd rfl (hv start)
      | _ => nomatch htext

theorem Usable.excuses {policy : Policy} (h : policy.Usable) (known : List String)
    (name : String) : ∃ excused, policy.excuses known name = .ok excused := by
  unfold Policy.excuses
  split
  · exact ⟨true, rfl⟩
  · have htoken : ∃ token, policy.looksLikeToken name = .ok token := by
      unfold looksLikeToken
      split
      · exact ⟨true, rfl⟩
      · exact startsWithOne_of_texts (baseName name) h
    obtain ⟨token, htoken⟩ := htoken
    exact ⟨token || policy.isPlaceholder name, by rw [htoken]; rfl⟩

theorem usable_default : default.Usable := by
  unfold Usable
  decide

end Policy

/-! ### What the rules find -/

namespace Lint

/-- The findings about a symbol when each name has an answer whether it is excused. -/
def undefinedFindings (excused : String → Bool) (s : Symbol) : List Finding :=
  if s.references.isEmpty || s.isDefined || excused s.name then [] else undefinedUses s

theorem undefinedAmong_of_excuses {policy : Policy} {known : List String} {excused : String → Bool}
    (h : ∀ name, policy.excuses known name = .ok (excused name)) (symbols : List Symbol) :
    undefinedAmong policy known symbols = .ok (symbols.flatMap (undefinedFindings excused)) := by
  induction symbols with
  | nil => rfl
  | cons s symbols ih =>
      rw [undefinedAmong, ih, h, List.flatMap_cons, undefinedFindings]
      cases hquiet : s.references.isEmpty || s.isDefined with
      | true => rfl
      | false => cases excused s.name <;> rfl

theorem undefinedAmong_sublist {policy base : Policy} (h : policy.Extends base)
    {known : List String} {excused : String → Bool}
    (hbase : ∀ name, base.excuses known name = .ok (excused name)) {symbols : List Symbol}
    {found : List Finding} (hfound : undefinedAmong policy known symbols = .ok found) :
    found.Sublist (symbols.flatMap (undefinedFindings excused)) := by
  induction symbols generalizing found with
  | nil =>
      cases hfound
      exact List.Sublist.refl []
  | cons s symbols ih =>
      rw [undefinedAmong] at hfound
      rw [List.flatMap_cons, undefinedFindings]
      cases hquiet : s.references.isEmpty || s.isDefined with
      | true =>
          rw [hquiet] at hfound
          exact ih hfound
      | false =>
          rw [hquiet] at hfound
          obtain ⟨excusedHere, hhere, hfound⟩ := bind_eq_ok hfound
          obtain ⟨more, hmore, hfound⟩ := bind_eq_ok hfound
          cases hfound
          cases hexcused : excused s.name with
          | true =>
              have hname : base.excuses known s.name = .ok true := by rw [hbase, hexcused]
              rw [Policy.excuses_of_extends h hhere hname]
              exact ih hmore
          | false =>
              cases excusedHere with
              | true => exact (ih hmore).trans (List.sublist_append_right _ _)
              | false => exact (ih hmore).append_left (undefinedUses s)

/-- A rule finds under a longer policy a part of what it finds under a usable one, in order. -/
def Rule.Narrows (rule : Rule) : Prop :=
  ∀ {policy base : Policy}, policy.Extends base → base.Usable → ∀ (table : Table)
    {found : List Finding}, rule.check table policy = .ok found →
      ∃ all, rule.check table base = .ok all ∧ found.Sublist all

theorem undefinedSymbol_narrows : undefinedSymbol.Narrows := by
  intro policy base h husable table found hfound
  choose excused hexcused using husable.excuses table.parameterNames
  refine ⟨_, congrArg (Except.mapError _) (undefinedAmong_of_excuses hexcused table.symbols), ?_⟩
  cases hamong : undefinedAmong policy table.parameterNames table.symbols with
  | error fault => simp only [undefinedSymbol, hamong, Except.mapError, reduceCtorEq] at hfound
  | ok found' =>
      simp only [undefinedSymbol, hamong, Except.mapError, Except.ok.injEq] at hfound
      subst hfound
      exact undefinedAmong_sublist h hexcused hamong

theorem unusedRule_narrows : unusedRule.Narrows := by
  intro policy base _ _ table found hfound
  exact ⟨found, hfound, List.Sublist.refl found⟩

theorem rules_narrow : ∀ rule ∈ rules, rule.enabled = true ∧ rule.Narrows := by
  intro rule hrule
  rcases List.mem_pair.mp hrule with rfl | rfl
  · exact ⟨rfl, undefinedSymbol_narrows⟩
  · exact ⟨rfl, unusedRule_narrows⟩

end Lint

/-- What a problem says and where, without how serious it is. -/
def Problem.statement (p : Problem) : String × Span × String := (p.code, p.span, p.message)

namespace Validator

theorem runRule_sublist {policy base : Policy} (h : policy.Extends base) (husable : base.Usable)
    (table : Table) {rule rule' : Lint.Rule} (hstyle : rule.Restyled rule')
    (henabled : rule.enabled = true) (hnarrows : rule.Narrows) :
    ((runRule policy table rule').2.map Problem.statement).Sublist
      ((runRule base table rule).2.map Problem.statement) := by
  rw [runRule, runRule, if_pos henabled]
  split
  · rw [hstyle.check]
    cases hfound : rule.check table policy with
    | error failure => exact List.nil_sublist _
    | ok found =>
        obtain ⟨all, hall, hsub⟩ := hnarrows h husable table hfound
        have hsame : Problem.statement ∘ rule'.problem = Problem.statement ∘ rule.problem := by
          funext finding
          simp only [Function.comp_apply, Problem.statement, Problem.code, Lint.Rule.problem,
            hstyle.kind]
        simp only [hall, List.map_map, hsame]
        exact hsub.map _
  · exact List.nil_sublist _

theorem runRules_sublist {policy base : Policy} (h : policy.Extends base) (husable : base.Usable)
    (table : Table) {rules rules' : List Lint.Rule}
    (hstyle : List.Forall₂ Lint.Rule.Restyled rules rules')
    (hrules : ∀ rule ∈ rules, rule.enabled = true ∧ rule.Narrows) :
    (((rules'.map (runRule policy table)).flatMap (·.2)).map Problem.statement).Sublist
      (((rules.map (runRule base table)).flatMap (·.2)).map Problem.statement) := by
  induction hstyle with
  | nil => exact List.Sublist.refl []
  | @cons rule rule' rules rules' hrule _ ih =>
      obtain ⟨henabled, hnarrows⟩ := hrules rule List.mem_cons_self
      have hrest := ih fun rule hrule => hrules rule (List.mem_cons_of_mem _ hrule)
      simp only [List.map_cons, List.flatMap_cons, List.map_append]
      exact (runRule_sublist h husable table hrule henabled hnarrows).append hrest

end Validator

/-- Settings only silence: with those that can be used, an analysis of any text gives a part of the
problems that it gives without settings, in the same order, with the same codes, spans and
messages. -/
theorem settings_only_silence (settings : Settings) {policy : Policy} {validator : Validator}
    (hpolicy : settings.policy = .ok policy)
    (hvalidator : (Validator.make policy settings.ruleSettings).2 = .ok validator)
    (text : String) :
    ∃ a b, (analyze policy settings.ruleSettings text).2 = .ok a ∧
      (analyze .default (.object []) text).2 = .ok b ∧ a.table = b.table ∧
      (a.problems.map Problem.statement).Sublist (b.problems.map Problem.statement) := by
  obtain ⟨hsame, hstyle⟩ := Validator.make_restyled hvalidator
  refine ⟨_, _, analyze_eq hvalidator (ofText_eq_run text),
    analyze_eq Validator.make_default (ofText_eq_run text), rfl, ?_⟩
  have hextends := Settings.policy_extends hpolicy
  rw [← hsame] at hextends
  exact Validator.runRules_sublist hextends Policy.usable_default _ hstyle Lint.rules_narrow

/-- One rule has a start that cannot be tried; the other is switched off twice, on again and made
an error. -/
def mutedSettings : Settings where
  options := some { reportUnusedRules := .bool false }
  lint := some {
    disabledRules := .list [.text "unused-rule"]
    extraBuiltins := .text "ab"
    extraTokenStarts := .list [.int 1]
    ruleSettings := .object
      [("unused-rule", .object [("level", .text "error"), ("enabled", .bool true)])] }

theorem mutedSettings_only_silence :
    ∃ policy a b, mutedSettings.policy = .ok policy ∧
      (analyze policy mutedSettings.ruleSettings "%%\nr : x ;").2 = .ok a ∧
      (analyze .default (.object []) "%%\nr : x ;").2 = .ok b ∧
      (a.problems.map Problem.statement).Sublist (b.problems.map Problem.statement) := by
  obtain ⟨a, b, ha, hb, -, hsub⟩ := settings_only_silence mutedSettings rfl rfl "%%\nr : x ;"
  exact ⟨_, a, b, rfl, ha, hb, hsub⟩

end GrammarLens
