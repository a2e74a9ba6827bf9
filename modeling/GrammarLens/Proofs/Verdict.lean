import GrammarLens.Proofs.Reporting

/-! # The verdict of a check

A check that comes to its end sums up and gives an exit code.  Both are read off a tally that is
kept while the files are gone through.  `Tally.foldl_countFile_of` gives the tally as what it is
meant to count: the problems of all files by their severities, and the files without a text among the
errors.

Settings whose fields have the types they are meant to have (`Settings.WellTyped`) always give a
policy and rules.  So under them every text can be analysed (`Settings.WellTyped.analyzes`), and only
a file can end a check early.  `verdict_exact` puts this together. -/

namespace GrammarLens

/-! ### Settings of the right types -/

/-- Whether a value is a list of texts. -/
def Json.isTextList : Json → Bool
  | .list items => items.all (·.text?.isSome)
  | _ => false

/-- Whether a value is an object. -/
def Json.isObject : Json → Bool
  | .object _ => true
  | _ => false

/-- Whether a value is an object of objects. -/
def Json.isTable : Json → Bool
  | .object fields => fields.all (·.2.isObject)
  | _ => false

/-- The fields of lint settings have their types: lists of names, and a table with an object for
each rule.  What such an object holds does not matter. -/
@[mk_iff]
structure LintSettings.WellTyped (lint : LintSettings) : Prop where
  disabledRules : lint.disabledRules.isTextList = true
  extraBuiltins : lint.extraBuiltins.isTextList = true
  extraPlaceholders : lint.extraPlaceholders.isTextList = true
  extraTokenStarts : lint.extraTokenStarts.isTextList = true
  ruleSettings : lint.ruleSettings.isTable = true

instance (lint : LintSettings) : Decidable lint.WellTyped :=
  decidable_of_iff' _ (LintSettings.wellTyped_iff lint)

theorem Json.elements_of_isTextList {v : Json} (h : v.isTextList = true) :
    ∃ items, v.elements = .ok items ∧ ∀ item ∈ items, item.text?.isSome = true := by
  cases v with
  | list items => exact ⟨items, rfl, List.all_eq_true.mp h⟩
  | _ => cases h

namespace Policy

theorem addKeys_of_texts {values : List Json} (h : ∀ v ∈ values, v.text?.isSome = true)
    (keys : List Json) : ∃ out, addKeys keys values = .ok out := by
  induction values generalizing keys with
  | nil => exact ⟨keys, rfl⟩
  | cons v values ih =>
      obtain ⟨hv, hvalues⟩ := List.forall_mem_cons.mp h
      cases v with
      | text s => exact ih hvalues (addNew keys (.text s))
      | _ => cases hv

theorem extend_of_isTextList {v : Json} (h : v.isTextList = true) (keys : List Json) :
    ∃ out, extend keys v = .ok out := by
  obtain ⟨items, hitems, htexts⟩ := Json.elements_of_isTextList h
  rw [extend, hitems]
  exact addKeys_of_texts htexts keys

theorem ofSettings_of_wellTyped {lint : LintSettings} (h : lint.WellTyped) :
    ∃ policy, ofSettings lint = .ok policy := by
  obtain ⟨disabled, hdisabled⟩ := extend_of_isTextList h.disabledRules default.disabled
  obtain ⟨builtins, hbuiltins⟩ := extend_of_isTextList h.extraBuiltins default.builtins
  obtain ⟨placeholders, hplaceholders⟩ :=
    extend_of_isTextList h.extraPlaceholders default.placeholders
  obtain ⟨starts, hstarts, -⟩ := Json.elements_of_isTextList h.extraTokenStarts
  rw [ofSettings, hdisabled, hbuiltins, hplaceholders, hstarts]
  exact ⟨_, rfl⟩

end Policy

/-! ### Rules under such settings -/

theorem Json.exists_mem_of_lookup {name : String} {fields : List (String × Json)} {v : Json}
    (h : lookup name fields = some v) : ∃ f ∈ fields, f.2 = v := by
  fun_induction lookup name fields with
  | case1 => cases h
  | case2 key w fields hkey => exact ⟨(key, w), List.mem_cons_self, Option.some.inj h⟩
  | case3 key w fields hkey ih =>
      obtain ⟨f, hf, hv⟩ := ih h
      exact ⟨f, List.mem_cons_of_mem _ hf, hv⟩

/-- An object can be asked whether it has a field, and has it if so. -/
theorem Json.mentions_object (name : String) (fields : List (String × Json)) :
    (object fields).mentions name = .ok false ∨
      ∃ f ∈ fields, (object fields).mentions name = .ok true ∧
        (object fields).field name = .ok f.2 := by
  cases hfound : lookup name fields with
  | none => exact Or.inl (by rw [mentions, hfound]; rfl)
  | some v =>
      obtain ⟨f, hf, rfl⟩ := exists_mem_of_lookup hfound
      exact Or.inr ⟨f, hf, by rw [mentions, hfound]; rfl, by rw [field, hfound]⟩

namespace Lint.Rule

theorem withLevel_of_isObject (rule : Rule) {own : Json} (h : own.isObject = true) :
    ∃ leveled, rule.withLevel own = .ok leveled := by
  cases own with
  | object fields =>
      rcases Json.mentions_object "level" fields with hnone | ⟨f, -, hsome, hlevel⟩
      · rw [withLevel, hnone]
        exact ⟨_, rfl⟩
      · -- A level that is no severity is told, and the rule keeps its own.
        rw [withLevel, hsome, hlevel]
        simp only [bind, Except.bind, if_true]
        split
        · exact ⟨_, rfl⟩
        · exact ⟨_, rfl⟩
  | _ => cases h

theorem withSwitch_of_isObject (rule : Rule) {own : Json} (h : own.isObject = true) :
    ∃ switched, rule.withSwitch own = .ok switched := by
  cases own with
  | object fields =>
      rcases Json.mentions_object "enabled" fields with hnone | ⟨f, -, hsome, hswitch⟩
      · rw [withSwitch, hnone]
        exact ⟨_, rfl⟩
      · rw [withSwitch, hsome, hswitch]
        exact ⟨_, rfl⟩
  | _ => cases h

/-- A table of objects for the rules leaves each of them a rule. -/
theorem configured_of_isTable (rule : Rule) (policy : Policy) {settings : Json}
    (h : settings.isTable = true) : ∃ result, rule.configured policy settings = .ok result := by
  unfold configured
  extract_lets switched
  cases settings with
  | object fields =>
      split
      · rcases Json.mentions_object rule.name fields with hnone | ⟨f, hf, hsome, hown⟩
        · rw [hnone]
          exact ⟨_, rfl⟩
        · -- What the table has for this rule is an object, so both its settings can be read.
          have hobject : f.2.isObject = true := List.all_eq_true.mp h f hf
          obtain ⟨leveled, hleveled⟩ := withLevel_of_isObject switched hobject
          obtain ⟨final, hfinal⟩ := withSwitch_of_isObject leveled.2 hobject
          simp only [hsome, hown, hleveled, hfinal, bind, Except.bind, if_true]
          exact ⟨_, rfl⟩
      · exact ⟨_, rfl⟩
  | _ => cases h

end Lint.Rule

namespace Validator

theorem make_of_isTable (policy : Policy) {settings : Json} (h : settings.isTable = true) :
    ∃ validator, (make policy settings).2 = .ok validator := by
  have hconfigure (rules : List Lint.Rule) :
      ∃ configured, (configure policy settings rules).2 = .ok configured := by
    induction rules with
    | nil => exact ⟨[], rfl⟩
    | cons rule rules ih =>
        obtain ⟨⟨notices, first⟩, hfirst⟩ := rule.configured_of_isTable policy h
        obtain ⟨rest, hrest⟩ := ih
        exact ⟨first :: rest, by simp only [configure, hfirst, hrest, Except.map]⟩
  obtain ⟨rules, hrules⟩ := hconfigure Lint.rules
  exact ⟨⟨policy, rules⟩, by simp only [make, hrules, Except.map]⟩

end Validator

/-- The lint settings, if there are any, have fields of their types. -/
def Settings.WellTyped (settings : Settings) : Prop := ∀ lint ∈ settings.lint, lint.WellTyped

instance (settings : Settings) : Decidable settings.WellTyped :=
  inferInstanceAs (Decidable (∀ lint ∈ settings.lint, lint.WellTyped))

theorem analyzes_of_isTable (policy : Policy) {settings : Json} (h : settings.isTable = true) :
    Analyzes policy settings := by
  obtain ⟨validator, hvalidator⟩ := Validator.make_of_isTable policy h
  exact fun text => ⟨_, analyze_eq hvalidator (ofText_eq_run text)⟩

/-- Under settings of the right types there is a policy, and every text can be analysed. -/
theorem Settings.WellTyped.analyzes {settings : Settings} (h : settings.WellTyped)
    (hoptions : settings.options = none) :
    ∃ policy, settings.policy = .ok policy ∧ Analyzes policy settings.ruleSettings := by
  cases hlint : settings.lint with
  | none =>
      refine ⟨.default, ?_, ?_⟩
      · simp only [Settings.policy, hlint, hoptions]
        rfl
      · simp only [Settings.ruleSettings, hlint]
        exact analyzes_of_isTable .default rfl
  | some lint =>
      have htyped := h lint hlint
      obtain ⟨policy, hpolicy⟩ := Policy.ofSettings_of_wellTyped htyped
      refine ⟨policy, ?_, ?_⟩
      · simp only [Settings.policy, hlint, hoptions, hpolicy]
        rfl
      · simp only [Settings.ruleSettings, hlint]
        exact analyzes_of_isTable policy htyped.ruleSettings

/-! ### What is counted -/

/-- The problems of a file; none if it has no text. -/
def FileReading.problems (policy : Policy) (settings : Json) : FileReading → List Problem
  | (_, .ok text) => problemsOf policy settings text
  | (_, .error _) => []

namespace Tally

/-- The tally of some problems and of a number of files without a text. -/
def of (problems : List Problem) (failed : Nat) : Tally where
  errors := problems.countP (·.severity = .error) + failed
  warnings := problems.countP (·.severity = .warning)
  notes := problems.countP fun p => p.severity ≠ .error ∧ p.severity ≠ .warning

theorem count_of (problems : List Problem) (failed : Nat) (p : Problem) :
    (of problems failed).count p.severity = of (problems ++ [p]) failed := by
  cases hseverity : p.severity with
  | error => simp [of, count, hseverity, Nat.add_right_comm]
  | _ => simp [of, count, hseverity]

theorem foldl_count_of (problems more : List Problem) (failed : Nat) :
    more.foldl (fun tally p => tally.count p.severity) (of problems failed) =
      of (problems ++ more) failed := by
  induction more generalizing problems with
  | nil => rw [List.append_nil, List.foldl_nil]
  | cons p more ih => rw [List.foldl_cons, count_of, ih, List.append_assoc, List.singleton_append]

variable {policy : Policy} {settings : Json}

theorem countFile_of (problems : List Problem) (failed : Nat) (file : FileReading) :
    (of problems failed).countFile policy settings file =
      of (problems ++ file.problems policy settings)
        (failed + if file.isUnreadable then 1 else 0) := by
  obtain ⟨path, reading⟩ := file
  cases reading with
  | ok text => exact foldl_count_of problems (problemsOf policy settings text) failed
  | error e => exact congrArg (of · (failed + 1)) (List.append_nil problems).symm

/-- The tally of all files counts their problems and those without a text. -/
theorem foldl_countFile_of (problems : List Problem) (failed : Nat) (files : List FileReading) :
    files.foldl (countFile policy settings) (of problems failed) =
      of (problems ++ files.flatMap (FileReading.problems policy settings))
        (failed + files.countP FileReading.isUnreadable) := by
  induction files generalizing problems failed with
  | nil => rw [List.flatMap_nil, List.append_nil, List.countP_nil, Nat.add_zero, List.foldl_nil]
  | cons file files ih =>
      rw [List.foldl_cons, countFile_of, ih, List.flatMap_cons, List.append_assoc, List.countP_cons]
      congr 1
      omega

theorem errors_of_pos_iff (problems : List Problem) (failed : Nat) :
    0 < (of problems failed).errors ↔ 0 < failed ∨ ∃ p ∈ problems, p.severity = .error := by
  rw [of, Nat.add_pos_iff_pos_or_pos, List.countP_pos_iff, or_comm]
  simp only [decide_eq_true_eq]

theorem warnings_of_pos_iff (problems : List Problem) (failed : Nat) :
    0 < (of problems failed).warnings ↔ ∃ p ∈ problems, p.severity = .warning := by
  rw [of, List.countP_pos_iff]
  simp only [decide_eq_true_eq]

end Tally

theorem Progress.summary_eq_ite (progress : Progress) (files : Nat) :
    let tally := progress.tally
    progress.summary files =
      ["", if tally.errors = 0 ∧ tally.warnings = 0 ∧ tally.notes = 0 then
          s!"All {files} files analyzed successfully"
        else
          s!"Summary: {tally.errors} errors, {tally.warnings} warnings, {tally.notes} notes"] := by
  intro tally
  have hclean : tally.isClean = true ↔
      tally.errors = 0 ∧ tally.warnings = 0 ∧ tally.notes = 0 := by
    simp only [Tally.isClean, Bool.and_eq_true, beq_iff_eq, and_assoc]
  show (if tally.isClean then _ else _) = _
  simp only [hclean]
  split
  · rfl
  · rfl

/-- A check fails just if something is counted as an error, or as a warning and it is strict. -/
theorem Progress.finish_exit (progress : Progress) (files : Nat) (strict : Bool) :
    ((progress.finish files strict).exit = 1 ↔
        0 < progress.tally.errors ∨ strict = true ∧ 0 < progress.tally.warnings) ∧
      ((progress.finish files strict).exit = 0 ∨ (progress.finish files strict).exit = 1) := by
  simp only [finish]
  split
  · exact ⟨iff_of_true rfl ‹_›, Or.inr rfl⟩
  · exact ⟨iff_of_false Nat.zero_ne_one ‹_›, Or.inl rfl⟩

/-! ### The whole check -/

namespace CheckRequest

variable {request : CheckRequest} {tree : FileTree} {settings : Settings}

/-- The settings that a check is made under. -/
def loaded (request : CheckRequest) (tree : FileTree) : Except LoadError Settings :=
  match request.settingsFile with
  | none => .ok {}
  | some path => (Settings.load {} tree path).2

/-- Settings that can be loaded bring no options with them, and nothing to tell. -/
theorem run_of_loaded (hloaded : request.loaded tree = .ok settings) :
    settings.options = none ∧ request.run tree = checkUnder settings [] request.strict
      ((request.paths tree).map fun paths => paths.map tree.reading) := by
  cases hfile : request.settingsFile with
  | none =>
      simp only [loaded, hfile, Except.ok.injEq] at hloaded
      subst hloaded
      refine ⟨rfl, ?_⟩
      simp only [run, hfile]
      rfl
  | some path =>
      simp only [loaded, hfile] at hloaded
      cases hload : LintSettings.load tree path with
      | error e =>
          rw [Settings.load, hload] at hloaded
          cases hloaded
      | ok lint =>
          have hpair : Settings.load {} tree path = ([], .ok { lint := some lint }) := by
            rw [Settings.load, hload]
          rw [hpair] at hloaded
          cases hloaded
          refine ⟨rfl, ?_⟩
          simp only [run, hfile, hpair]
          rfl

/-- A check of given files under settings of the right types goes through these files. -/
theorem run_wellTyped (hfiles : request.files ≠ []) (hloaded : request.loaded tree = .ok settings)
    (htyped : settings.WellTyped) :
    ∃ policy, settings.policy = .ok policy ∧ Analyzes policy settings.ruleSettings ∧
      request.run tree =
        match checkFiles policy settings.ruleSettings {} (request.files.map tree.reading) with
        | .error progress => progress.giveUp
        | .ok progress => progress.finish request.files.length request.strict := by
  obtain ⟨hoptions, hrun⟩ := run_of_loaded hloaded
  obtain ⟨policy, hpolicy, hanalyzes⟩ := htyped.analyzes hoptions
  refine ⟨policy, hpolicy, hanalyzes, ?_⟩
  have hpaths : request.paths tree = .ok request.files := by
    rw [CheckRequest.paths, if_neg (by rwa [List.isEmpty_iff])]
  have hsome : (request.files.map tree.reading).isEmpty = false := by
    rw [List.isEmpty_map]
    exact List.isEmpty_eq_false_iff.mpr hfiles
  rw [hrun, hpaths]
  simp only [checkUnder, hpolicy, Except.map, hsome, List.length_map]
  rfl

/-- Such a check that no file ends reports all files and counts all their problems. -/
theorem run_counts (hfiles : request.files ≠ []) (hloaded : request.loaded tree = .ok settings)
    (htyped : settings.WellTyped)
    (hread : ∀ path ∈ request.files, (tree.reading path).goesOn = true) :
    ∃ policy, settings.policy = .ok policy ∧ Analyzes policy settings.ruleSettings ∧
      ∃ reached : Progress,
        request.run tree = reached.finish request.files.length request.strict ∧
        reached.lines = request.files.flatMap
          (fun path => (tree.reading path).lines policy settings.ruleSettings) ∧
        reached.tally = .of
          (request.files.flatMap
            fun path => (tree.reading path).problems policy settings.ruleSettings)
          (request.files.countP fun path => (tree.reading path).isUnreadable) := by
  obtain ⟨policy, hpolicy, hanalyzes, hrun⟩ := run_wellTyped hfiles hloaded htyped
  obtain ⟨reached, hcheck, hlines, htally⟩ :=
    checkFiles_spec hanalyzes {} (request.files.map tree.reading)
  have hall : ∀ file ∈ request.files.map tree.reading, file.goesOn = true := by
    simpa using hread
  rw [if_pos (List.all_eq_true.mpr hall)] at hcheck
  rw [List.takeWhile_eq_self_iff.mpr hall] at hlines htally
  refine ⟨policy, hpolicy, hanalyzes, reached, ?_, ?_, ?_⟩
  · rw [hrun, hcheck]
  · rw [hlines, List.flatMap_map]
    rfl
  · -- At the start nothing is counted, which is the tally of no problems.
    have hempty : ({} : Tally) = .of [] 0 := rfl
    rw [htally, hempty, Tally.foldl_countFile_of, List.nil_append, Nat.zero_add, List.flatMap_map,
      List.countP_map]
    rfl

end CheckRequest

theorem FileTree.goesOn_reading_iff {tree : FileTree} {path : Path} :
    (tree.reading path).goesOn = true ↔
      ∀ e, tree.readText path = .error e → e.endsCheck = false := by
  rw [reading]
  cases hread : tree.readText path with
  | ok text =>
      refine iff_of_true rfl ?_
      rintro e ⟨⟩
  | error e => simp [FileReading.goesOn]

theorem FileTree.isUnreadable_reading_iff {tree : FileTree} {path : Path} :
    (tree.reading path).isUnreadable = true ↔ ∃ e, tree.readText path = .error e := by
  rw [reading]
  cases hread : tree.readText path with
  | ok text =>
      refine iff_of_false Bool.false_ne_true ?_
      rintro ⟨e, ⟨⟩⟩
  | error e => exact iff_of_true rfl ⟨e, rfl⟩

/-- Settings that make an unused rule an error, a grammar with such a rule, and nothing else. -/
def severeFiles : FileTree where
  directory := ⟨1, ["w"]⟩
  entries := [(["w", "b.y"], .file (Utf8.encode "%%\nr : q ;".toList)),
    (["w", "s.json"], .file (Utf8.encode
      "\x7b\"rule_configs\": \x7b\"unused-rule\": \x7b\"level\": \"error\"\x7d\x7d\x7d".toList))]

def severeCheck : CheckRequest where
  files := [⟨0, ["b.y"]⟩, ⟨0, ["c.y"]⟩]
  settingsFile := some ⟨0, ["s.json"]⟩

theorem eq_ok_of_mem_toOption {ε α : Type} {x : Except ε α} {a : α} (h : a ∈ x.toOption) :
    x = .ok a := by
  cases x with
  | error e => cases h
  | ok b => exact congrArg _ (Option.some.inj h)

end GrammarLens
