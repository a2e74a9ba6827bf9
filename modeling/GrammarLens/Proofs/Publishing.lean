import GrammarLens.Server
import Mathlib.Logic.Basic

/-! # Publishing under a limit

The options of a client give a limit for the problems that are published of one document.  The
value is taken as it is and used when a document is opened or changed.  A whole number that is not
negative works as a limit (`limited_capped_iff`).  A negative one leaves out that many problems at
the end, so it lets problems through, and a value that is no integer is a failure.  A server keeps
its options while documents are opened (`opened_keeps`), so each reply of a session is known from
the options and the text alone (`published_capped_iff`). -/

namespace GrammarLens

/-! ### Numbers as limits -/

namespace Number

theorem whole_le_whole (n m : Int) : (whole n).le (whole m) = decide (n ≤ m) := by
  simp [le, quotient?, Double.twoTo]

/-- Of a whole number and one of 64 bits, one is at most as great as the other. -/
theorem whole_le_of_not_le {x : Double} (hx : x ≠ .nan) {n : Int}
    (h : (double x).le (whole n) = false) : (whole n).le (double x) = true := by
  cases x with
  | nan => exact absurd rfl hx
  | infinite negative =>
      cases negative with
      | true => cases h
      | false => rfl
  | finite negative mantissa exponent =>
      simp only [le, quotient?, decide_eq_false_iff_not, decide_eq_true_eq] at h ⊢
      omega

end Number

namespace Json

/-- The limit lets so many problems through: none, or as many as the number that it is. -/
def Allows (limit : Json) (n : Nat) : Prop :=
  n = 0 ∨ ∃ most, limit.number? = some most ∧ (Number.whole n).le most = true

/-- The value works as a limit for so many problems.  A negative number does so only if it leaves
out all of them; a number of 64 bits, only if it need not be applied. -/
def Limits (limit : Json) (count : Nat) : Prop :=
  match limit.number? with
  | some (.whole n) => 0 ≤ n ∨ count ≤ n.natAbs
  | some (.double x) => (Number.whole count).le (.double x) = true ∨ (x = .nan ∧ count = 0)
  | none => False

end Json

section Limit

variable {α : Type}

theorem takeLimit_isPrefix (limit : Int) (xs : List α) : takeLimit limit xs <+: xs := by
  unfold takeLimit
  repeat' split
  · exact List.take_prefix _ _
  · exact List.take_prefix _ _
  · exact List.prefix_refl _

theorem length_takeLimit_of_nonneg {limit : Int} (h : 0 ≤ limit) (xs : List α) :
    ((takeLimit limit xs).length : Int) ≤ limit := by
  unfold takeLimit
  split
  · rw [if_neg (by omega), List.length_take]
    omega
  · omega

theorem length_takeLimit_of_neg {limit : Int} (h : limit < 0) (xs : List α) :
    (takeLimit limit xs).length = xs.length - limit.natAbs := by
  unfold takeLimit
  rw [if_pos (by omega), if_pos h, List.length_take]
  omega

end Limit

namespace Server

theorem limited_whole_iff {limit : Json} {n : Int} (h : limit.number? = some (.whole n))
    (problems : List Problem) :
    limit.Allows (takeLimit n problems).length ↔ 0 ≤ n ∨ problems.length ≤ n.natAbs := by
  have hallows : limit.Allows (takeLimit n problems).length ↔
      (takeLimit n problems).length = 0 ∨ ((takeLimit n problems).length : Int) ≤ n := by
    simp [Json.Allows, h, Number.whole_le_whole]
  rw [hallows]
  by_cases hn : 0 ≤ n
  · have := length_takeLimit_of_nonneg hn problems
    exact iff_of_true (Or.inr this) (Or.inl hn)
  · have := length_takeLimit_of_neg (by omega : n < 0) problems
    omega

theorem limited_double_iff {limit : Json} {x : Double} (h : limit.number? = some (.double x))
    (count : Nat) :
    ((Number.double x).lt (.whole count) = false ∧ limit.Allows count) ↔
      (Number.whole count).le (.double x) = true ∨ (x = .nan ∧ count = 0) := by
  have hallows : limit.Allows count ↔
      count = 0 ∨ (Number.whole count).le (.double x) = true := by
    simp [Json.Allows, h]
  have hlt : (Number.double x).lt (.whole count) = false ↔
      ((Number.double x).le (.whole count) = false ∨
        (Number.whole count).le (.double x) = true) := by
    rw [Number.lt, Bool.and_eq_false_iff, Bool.not_eq_false']
  rw [hallows, hlt]
  constructor
  · rintro ⟨hnot, hzero | hle⟩
    · by_cases hx : x = .nan
      · exact Or.inr ⟨hx, hzero⟩
      · exact Or.inl (hnot.elim (Number.whole_le_of_not_le hx) id)
    · exact Or.inl hle
  · rintro (hle | ⟨rfl, hzero⟩)
    · exact ⟨Or.inr hle, Or.inr hle⟩
    · exact ⟨Or.inl rfl, Or.inl hzero⟩

/-- Just the values that work as limits give some of the first problems, no more than allowed. -/
theorem limited_capped_iff (limit : Json) (problems : List Problem) :
    (∃ shown, limited limit problems = .ok shown ∧ shown <+: problems ∧
      limit.Allows shown.length) ↔ limit.Limits problems.length := by
  unfold limited Json.Limits
  cases hnumber : limit.number? with
  | none => simp
  | some number =>
      cases number with
      | whole n =>
          simp only [← limited_whole_iff hnumber problems, Except.ok.injEq, exists_eq_left']
          exact and_iff_right (takeLimit_isPrefix n problems)
      | double x =>
          simp only [← limited_double_iff hnumber]
          cases (Number.double x).lt (.whole problems.length) with
          | true => simp
          | false => simp

end Server

/-! ### Options -/

namespace Settings

theorem tryLoad_options (settings : Settings) (tree : FileTree) (path : Path) :
    (settings.tryLoad tree path).2.options = settings.options := by
  unfold tryLoad load
  cases LintSettings.load tree path with
  | ok lint => rfl
  | error e => rfl

/-- Settings that take options hold them as they were read. -/
theorem options_of_setOptions {settings settings' : Settings} {tree : FileTree} {log log' : Log}
    {v : Json} (h : settings.setOptions tree log v = (log', .ok settings')) :
    ∃ options, (Options.ofJson v).2 = .ok options ∧ settings'.options = some options := by
  unfold setOptions at h
  rcases hread : Options.ofJson v with ⟨notices, fault | options⟩
  · rw [hread] at h
    cases h
  · rw [hread] at h
    refine ⟨options, rfl, ?_⟩
    simp only at h
    split at h
    · cases h
      rfl
    · cases h
      exact tryLoad_options _ tree _

end Settings

namespace Server

variable {ε : Type}

/-! ### One reply -/

/-- The reply is some of the first problems, no more than the limit of the options allows, and none
of them if the options have none published. -/
def Capped (options : Options) (full : List Problem)
    (reply : Except (Failure ε) (List Problem)) : Prop :=
  ∃ shown, reply = .ok shown ∧ shown <+: full ∧ options.maxDiagnostics.Allows shown.length ∧
    (options.diagnosticsEnabled.isTrue = false → shown = [])

theorem capped_published_iff (editor : Editor ε) {server : Server} {options : Options}
    (hoptions : server.settings.options = some options) (problems : List Problem) :
    Capped options problems (server.published editor problems) ↔
      options.diagnosticsEnabled.isTrue = false ∨
        ((∀ p ∈ problems, editor.Takes p.span) ∧
          options.maxDiagnostics.Limits problems.length) := by
  have henabled : server.settings.diagnosticsEnabled = options.diagnosticsEnabled := by
    rw [Settings.diagnosticsEnabled, hoptions]
  have hmost : server.settings.maxDiagnostics = options.maxDiagnostics := by
    rw [Settings.maxDiagnostics, hoptions]
  unfold published
  rw [henabled, hmost]
  cases hswitch : options.diagnosticsEnabled.isTrue with
  | false =>
      refine iff_of_true ?_ (Or.inl rfl)
      exact ⟨[], rfl, List.nil_prefix, Or.inl rfl, fun _ => rfl⟩
  | true =>
      rw [if_pos rfl, or_iff_right (by decide)]
      rw [← List.forall_mem_map]
      by_cases htakes : ∀ s ∈ problems.map (·.span), editor.Takes s
      · rw [editor.express_eq_ok_iff.mpr htakes, and_iff_right htakes, ← limited_capped_iff]
        show Capped options problems ((limited _ problems).mapError _) ↔ _
        cases limited options.maxDiagnostics problems with
        | error fault =>
            show Capped options problems (.error (.fault fault)) ↔ _
            simp [Capped]
        | ok shown =>
            show Capped options problems (.ok shown) ↔ _
            simp [Capped, hswitch]
      · -- Some problem cannot be sent, so none is.
        refine iff_of_false ?_ fun h => htakes h.1
        obtain ⟨e, he⟩ := editor.exists_express_eq_error htakes
        rw [he]
        rintro ⟨shown, hshown, -⟩
        cases hshown

/-- What a server goes by when a document is opened: its settings, and those of its store. -/
structure SameTerms (server server' : Server) : Prop where
  settings : server'.settings = server.settings
  policy : server'.documents.policy = server.documents.policy
  ruleSettings : server'.documents.ruleSettings = server.documents.ruleSettings

theorem SameTerms.trans {server server' server'' : Server} (h : SameTerms server server')
    (h' : SameTerms server' server'') : SameTerms server server'' :=
  ⟨h'.settings.trans h.settings, h'.policy.trans h.policy, h'.ruleSettings.trans h.ruleSettings⟩

theorem openDocument_text (editor : Editor ε) (server : Server) (uri text : String) :
    SameTerms server (server.openDocument editor (.text uri) (.text text)).1 ∧
      (server.openDocument editor (.text uri) (.text text)).2 =
        match (analyze server.documents.policy server.documents.ruleSettings text).2 with
        | .ok analysis => server.published editor analysis.problems
        | .error _ => .ok [] := by
  have hupdate : server.documents.updateNamed (.text uri) (.text text) =
      server.documents.update (.text uri) (.text text) := rfl
  have hpass : server.documents.analysisOf (.text text) =
      analyze server.documents.policy server.documents.ruleSettings text := rfl
  unfold openDocument update
  rw [hupdate, Documents.update, hpass]
  rcases analyze server.documents.policy server.documents.ruleSettings text with
    ⟨notices, failure | analysis⟩
  · exact ⟨⟨rfl, rfl, rfl⟩, rfl⟩
  · exact ⟨⟨rfl, rfl, rfl⟩, rfl⟩

/-! ### A session -/

/-- The server after some documents were opened or changed, each with its text. -/
def opened (server : Server) (editor : Editor ε) (calls : List (String × String)) : Server :=
  calls.foldl (fun current call => (current.openDocument editor (.text call.1) (.text call.2)).1)
    server

theorem opened_keeps (editor : Editor ε) (server : Server) (calls : List (String × String)) :
    SameTerms server (server.opened editor calls) := by
  induction calls generalizing server with
  | nil => exact ⟨rfl, rfl, rfl⟩
  | cons call calls ih =>
      have hfirst := (openDocument_text editor server call.1 call.2).1
      exact hfirst.trans (ih (server.openDocument editor (.text call.1) (.text call.2)).1)

/-- A server that accepts options goes by them and by the policy that they make. -/
theorem terms_of_accepted {server : Server} {tree : FileTree} {v : Json}
    (h : (server.setOptions tree v).2 = .ok ()) :
    ∃ options policy, (Options.ofJson v).2 = .ok options ∧
      (server.setOptions tree v).1.settings.options = some options ∧
      (server.setOptions tree v).1.settings.policy = .ok policy ∧
      (server.setOptions tree v).1.documents.policy = policy ∧
      (server.setOptions tree v).1.documents.ruleSettings =
        (server.setOptions tree v).1.settings.ruleSettings := by
  unfold setOptions at h ⊢
  rcases hset : server.settings.setOptions tree server.log v with ⟨log, fault | settings⟩
  · rw [hset] at h
    cases h
  · obtain ⟨options, hread, hoptions⟩ := Settings.options_of_setOptions hset
    rw [hset] at h
    simp only at h ⊢
    cases hpolicy : settings.policy with
    | error fault =>
        rw [hpolicy] at h
        cases h
    | ok policy => exact ⟨options, policy, hread, hoptions, hpolicy, rfl, rfl⟩

/-- Once a server has accepted options, each document that is opened or changed is replied to as the
options and its text say, whatever the protocol of the editor can express.  A pass that fails
publishes nothing.  Otherwise the reply is some of the first problems of the text, within the limit,
just if publishing is switched off or the editor can express all problems and the limit works for as
many of them. -/
theorem published_capped_iff (editor : Editor ε) (server : Server) (tree : FileTree) (v : Json)
    (accepted : (server.setOptions tree v).2 = .ok ()) :
    ∃ options policy, (Options.ofJson v).2 = .ok options ∧
      (server.setOptions tree v).1.settings.policy = .ok policy ∧
      ∀ (before : List (String × String)) (uri text : String),
        let ready := (server.setOptions tree v).1
        let reply :=
          ((ready.opened editor before).openDocument editor (.text uri) (.text text)).2
        (∀ failure, (analyze policy ready.settings.ruleSettings text).2 = .error failure →
          reply = .ok []) ∧
        ∀ analysis, (analyze policy ready.settings.ruleSettings text).2 = .ok analysis →
          (Capped options analysis.problems reply ↔
            options.diagnosticsEnabled.isTrue = false ∨
              ((∀ p ∈ analysis.problems, editor.Takes p.span) ∧
                options.maxDiagnostics.Limits analysis.problems.length)) := by
  obtain ⟨options, policy, hread, hoptions, hpolicy, hstore, hrules⟩ := terms_of_accepted accepted
  refine ⟨options, policy, hread, hpolicy, ?_⟩
  intro before uri text ready reply
  have hterms := opened_keeps editor ready before
  have hreply : reply =
      match (analyze policy ready.settings.ruleSettings text).2 with
      | .ok analysis => (ready.opened editor before).published editor analysis.problems
      | .error _ => .ok [] := by
    rw [← hstore, ← hrules, ← hterms.policy, ← hterms.ruleSettings]
    exact (openDocument_text editor (ready.opened editor before) uri text).2
  refine ⟨?_, ?_⟩
  · intro failure hfailed
    rw [hreply, hfailed]
  · intro analysis hpassed
    rw [hreply, hpassed]
    exact capped_published_iff editor (hterms.settings ▸ hoptions) analysis.problems

/-! ### Limits that work and limits that do not -/

/-- Options that only give a limit. -/
def limitOptions (limit : Json) : Json := .object [("max_diagnostics_per_file", limit)]

/-- A working directory without files. -/
def noFiles : FileTree := ⟨⟨1, []⟩, []⟩

/-- A rule that nothing uses, with a symbol that nothing defines. -/
def twoProblemsText : String := "%%\nr : q ;"

theorem limitOne_published :
    (initial.setOptions noFiles (limitOptions (.int 1))).2 = .ok () ∧
      ∃ options analysis, options.maxDiagnostics = .int 1 ∧
        (analyze .default (.object []) twoProblemsText).2 = .ok analysis ∧
        analysis.problems.length = 2 ∧
        Capped options analysis.problems
          (((initial.setOptions noFiles (limitOptions (.int 1))).1.opened .unbounded
            [("a.y", "%%")]).openDocument .unbounded (.text "a.y") (.text twoProblemsText)).2 := by
  have haccepted : (initial.setOptions noFiles (limitOptions (.int 1))).2 = .ok () := rfl
  obtain ⟨options, policy, hread, hpolicy, hreply⟩ :=
    published_capped_iff .unbounded initial noFiles (limitOptions (.int 1)) haccepted
  have hread : Except.ok { maxDiagnostics := .int 1 } = Except.ok options := hread
  have hpolicy : Except.ok Policy.default = Except.ok policy := hpolicy
  cases hread
  cases hpolicy
  have hfound : (analyze .default (.object []) twoProblemsText).2.toOption.map
      (·.problems.length) = some 2 := by
    decide +kernel
  cases hpass : (analyze .default (.object []) twoProblemsText).2 with
  | error failure =>
      rw [hpass] at hfound
      cases hfound
  | ok analysis =>
      rw [hpass] at hfound
      refine ⟨haccepted, { maxDiagnostics := .int 1 }, analysis, rfl, rfl,
        Option.some.inj hfound, ?_⟩
      refine ((hreply [("a.y", "%%")] "a.y" twoProblemsText).2 analysis hpass).mpr (Or.inr ?_)
      exact ⟨fun _ _ => ⟨rfl, rfl⟩, Or.inl (by decide)⟩

/-- With a limit that is no number there is no reply, even if there is nothing to publish.  With a
limit below zero a problem is published. -/
theorem limits_not_kept :
    ((initial.setOptions noFiles (limitOptions .null)).2 = .ok () ∧
      (analyze .default (.object []) "").2.toOption.map (·.problems) = some [] ∧
      ((initial.setOptions noFiles (limitOptions .null)).1.openDocument .unbounded
        (.text "a.y") (.text "")).2.toOption = none) ∧
    ((initial.setOptions noFiles (limitOptions (.int (-1)))).2 = .ok () ∧
      ((initial.setOptions noFiles (limitOptions (.int (-1)))).1.openDocument .unbounded
        (.text "a.y") (.text twoProblemsText)).2.toOption.map List.length = some 1) :=
  ⟨⟨rfl, by decide +kernel, by decide +kernel⟩, rfl, by decide +kernel⟩

end Server

end GrammarLens
