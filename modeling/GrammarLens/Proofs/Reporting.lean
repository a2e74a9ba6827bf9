import GrammarLens.Check
import GrammarLens.Proofs.Silencing
import Mathlib.Data.List.TakeWhile

/-! # What a check reports about its files

A check goes through its files one after the other.  A file with a text adds a line for each problem
and is counted under their severities; a file that cannot be read is counted as an error and
passed over, unless the reason is one over which the check is given up (`FileError.endsCheck`).
`checkFiles_spec` says where that leads for all lists of files: the lines and the tally are those of
the files before the first one that ends the check, and nothing behind it is looked at.

So a check without settings reports all readable files, whatever happens to the others, just if none
of those behind such a file has a problem (`readable_files_reported_iff`). -/

namespace GrammarLens

/-! ### One file -/

/-- Whether a check is given up over a file that cannot be read for this reason. -/
def FileError.endsCheck : FileError → Bool
  | .notUtf8 | .path _ => true
  | _ => false

/-- A file that a check looks at, with its text or the reason why there is none. -/
abbrev FileReading := Path × Except FileError String

/-- Whether a check goes on behind a file. -/
def FileReading.goesOn : FileReading → Bool
  | (_, .ok _) => true
  | (_, .error e) => !e.endsCheck

/-- Whether a file has no text. -/
def FileReading.isUnreadable : FileReading → Bool
  | (_, .ok _) => false
  | (_, .error _) => true

section Files

variable (policy : Policy) (settings : Json)

/-- The problems of a text; none if it cannot be analysed. -/
def problemsOf (text : String) : List Problem :=
  match (analyze policy settings text).2 with
  | .ok analysis => analysis.problems
  | .error _ => []

/-- The lines of output for a file: one for each problem of its text. -/
def FileReading.lines : FileReading → List String
  | (path, .ok text) => (problemsOf policy settings text).map (·.line path)
  | (_, .error _) => []

/-- Counts the problems of a file, or the file if it has no text. -/
def Tally.countFile (tally : Tally) : FileReading → Tally
  | (_, .ok text) =>
    (problemsOf policy settings text).foldl (fun tally p => tally.count p.severity) tally
  | (_, .error _) => tally.count .error

/-- Every text can be analysed. -/
def Analyzes : Prop := ∀ text, ∃ analysis, (analyze policy settings text).2 = .ok analysis

variable {policy settings}

theorem analyze_eq_problemsOf (h : Analyzes policy settings) (text : String) :
    ∃ notices analysis, analyze policy settings text = (notices, .ok analysis) ∧
      analysis.problems = problemsOf policy settings text := by
  obtain ⟨analysis, hanalysis⟩ := h text
  refine ⟨(analyze policy settings text).1, analysis, Prod.ext rfl hanalysis, ?_⟩
  rw [problemsOf, hanalysis]

/-- A file behind which the check goes on adds its lines and is counted. -/
theorem checkFiles_goesOn (h : Analyzes policy settings) (progress : Progress) {file : FileReading}
    (hfile : file.goesOn = true) (files : List FileReading) :
    ∃ next : Progress, checkFiles policy settings progress (file :: files) =
        checkFiles policy settings next files ∧
      next.lines = progress.lines ++ FileReading.lines policy settings file ∧
      next.tally = progress.tally.countFile policy settings file := by
  obtain ⟨path, reading⟩ := file
  cases reading with
  | ok text =>
      obtain ⟨notices, analysis, hanalysis, hproblems⟩ := analyze_eq_problemsOf h text
      refine ⟨(progress.tell notices).report path analysis.problems, ?_, ?_, ?_⟩
      · rw [checkFiles, hanalysis]
      · rw [FileReading.lines, ← hproblems]
        rfl
      · rw [Tally.countFile, ← hproblems]
        rfl
  | error e =>
      refine ⟨({ progress with tally := progress.tally.count .error } : Progress).tell
        [.fileUnreadable path.render], ?_, (List.append_nil _).symm, rfl⟩
      cases e with
      | notUtf8 => cases hfile
      | path e => cases hfile
      | _ => rfl

/-- Over another file the check is given up as it stands. -/
theorem checkFiles_givesUp (progress : Progress) {file : FileReading} (hfile : file.goesOn = false)
    (files : List FileReading) :
    checkFiles policy settings progress (file :: files) = .error progress := by
  obtain ⟨path, reading⟩ := file
  cases reading with
  | ok text => cases hfile
  | error e =>
      cases e with
      | notUtf8 => rfl
      | path e => rfl
      | _ => cases hfile

/-- The check comes as far as the first file that ends it, and reports what stands before. -/
theorem checkFiles_spec (h : Analyzes policy settings) (progress : Progress)
    (files : List FileReading) :
    ∃ reached : Progress,
      checkFiles policy settings progress files =
        (if files.all FileReading.goesOn then .ok reached else .error reached) ∧
      reached.lines = progress.lines ++
        (files.takeWhile FileReading.goesOn).flatMap (FileReading.lines policy settings) ∧
      reached.tally = (files.takeWhile FileReading.goesOn).foldl
        (Tally.countFile policy settings) progress.tally := by
  induction files generalizing progress with
  | nil => exact ⟨progress, rfl, (List.append_nil _).symm, rfl⟩
  | cons file files ih =>
      cases hfile : file.goesOn with
      | true =>
          obtain ⟨next, hnext, hlines, htally⟩ := checkFiles_goesOn h progress hfile files
          obtain ⟨reached, hreached, hlines', htally'⟩ := ih next
          refine ⟨reached, ?_, ?_, ?_⟩
          · rw [hnext, hreached, List.all_cons, hfile, Bool.true_and]
          · rw [hlines', hlines, List.takeWhile_cons_of_pos hfile, List.flatMap_cons,
              List.append_assoc]
          · rw [htally', htally, List.takeWhile_cons_of_pos hfile, List.foldl_cons]
      | false =>
          have hstop : (file :: files).takeWhile FileReading.goesOn = [] :=
            List.takeWhile_cons_of_neg (by rw [hfile]; decide)
          refine ⟨progress, ?_, ?_, ?_⟩
          · rw [checkFiles_givesUp progress hfile, List.all_cons, hfile]
            rfl
          · rw [hstop]
            exact (List.append_nil _).symm
          · rw [hstop]
            rfl

end Files

/-! ### Errors are never uncounted -/

namespace Tally

theorem errors_le_count (tally : Tally) (severity : Severity) :
    tally.errors ≤ (tally.count severity).errors := by
  cases severity with
  | error => exact Nat.le_succ _
  | _ => exact Nat.le_refl _

theorem errors_le_foldl {α : Type} {add : Tally → α → Tally}
    (h : ∀ tally x, tally.errors ≤ (add tally x).errors) (tally : Tally) (xs : List α) :
    tally.errors ≤ (xs.foldl add tally).errors := by
  induction xs generalizing tally with
  | nil => exact Nat.le_refl _
  | cons x xs ih => exact Nat.le_trans (h tally x) (ih (add tally x))

variable {policy : Policy} {settings : Json}

theorem errors_le_countFile (tally : Tally) (file : FileReading) :
    tally.errors ≤ (tally.countFile policy settings file).errors := by
  obtain ⟨path, reading⟩ := file
  cases reading with
  | ok text => exact errors_le_foldl (fun tally _ => errors_le_count tally _) tally _
  | error e => exact errors_le_count tally .error

/-- A file without a text is an error in the end. -/
theorem errors_pos_of_unreadable {files : List FileReading} {file : FileReading}
    (hmem : file ∈ files) (hfile : file.isUnreadable = true) (tally : Tally) :
    0 < (files.foldl (countFile policy settings) tally).errors := by
  obtain ⟨before, after, rfl⟩ := List.append_of_mem hmem
  obtain ⟨path, reading⟩ := file
  cases reading with
  | ok text => cases hfile
  | error e =>
      rw [List.foldl_append, List.foldl_cons]
      refine Nat.lt_of_lt_of_le ?_ (errors_le_foldl errors_le_countFile _ after)
      exact Nat.succ_pos _

end Tally

/-! ### The whole check -/

theorem analyzes_default : Analyzes .default (.object []) := fun text =>
  ⟨_, analyze_eq Validator.make_default (ofText_eq_run text)⟩

namespace FileTree

variable (tree : FileTree)

/-- The file at a path, with its text or the reason why there is none. -/
def reading (path : Path) : FileReading := (path, tree.readText path)

/-- The lines that a check without settings owes to the file at a path: one for each problem of its
text. -/
def problemLines (path : Path) : List String :=
  (tree.reading path).lines .default (.object [])

end FileTree

namespace CheckRequest

variable {request : CheckRequest} {tree : FileTree}

theorem run_eq (hfiles : request.files ≠ []) (hsettings : request.settingsFile = none) :
    request.run tree =
      match checkFiles .default (.object []) {} (request.files.map tree.reading) with
      | .error progress => progress.giveUp
      | .ok progress => progress.finish request.files.length request.strict := by
  have hpaths : request.paths tree = .ok request.files := by
    rw [CheckRequest.paths, if_neg (by rwa [List.isEmpty_iff])]
  have hsome : (request.files.map tree.reading).isEmpty = false := by
    rw [List.isEmpty_map]
    exact List.isEmpty_eq_false_iff.mpr hfiles
  have hpolicy : ({} : Settings).policy = .ok .default := rfl
  rw [CheckRequest.run, hsettings, hpaths]
  show checkUnder {} [] request.strict (.ok (request.files.map tree.reading)) = _
  simp only [checkUnder, hpolicy, hsome, List.length_map]
  rfl

/-- A check without settings that no file ends reports all files. -/
theorem run_finishes (hfiles : request.files ≠ []) (hsettings : request.settingsFile = none)
    (hall : (request.files.map tree.reading).all FileReading.goesOn = true) :
    ∃ reached : Progress,
      request.run tree = reached.finish request.files.length request.strict ∧
      reached.lines = request.files.flatMap tree.problemLines ∧
      reached.tally = (request.files.map tree.reading).foldl
        (Tally.countFile .default (.object [])) {} := by
  obtain ⟨reached, hcheck, hlines, htally⟩ :=
    checkFiles_spec analyzes_default {} (request.files.map tree.reading)
  rw [if_pos hall] at hcheck
  rw [List.takeWhile_eq_self_iff.mpr (List.all_eq_true.mp hall)] at hlines htally
  refine ⟨reached, ?_, ?_, htally⟩
  · rw [run_eq hfiles hsettings, hcheck]
  · rw [hlines, List.flatMap_map]
    rfl

/-- A check without settings that is given up over a file reports the files before it. -/
theorem run_givesUp (hfiles : request.files ≠ []) (hsettings : request.settingsFile = none)
    (hall : (request.files.map tree.reading).all FileReading.goesOn = false) :
    ∃ reached : Progress, request.run tree = reached.giveUp ∧
      reached.lines = (request.files.takeWhile fun path => (tree.reading path).goesOn).flatMap
        tree.problemLines := by
  obtain ⟨reached, hcheck, hlines, -⟩ :=
    checkFiles_spec analyzes_default {} (request.files.map tree.reading)
  rw [if_neg (by rw [hall]; decide)] at hcheck
  refine ⟨reached, ?_, ?_⟩
  · rw [run_eq hfiles hsettings, hcheck]
  · rw [hlines, List.takeWhile_map, List.flatMap_map]
    rfl

end CheckRequest

theorem Progress.summary_eq (progress : Progress) (files : Nat) :
    ∃ sum, progress.summary files = ["", sum] := by
  simp only [Progress.summary]
  split
  · exact ⟨_, rfl⟩
  · exact ⟨_, rfl⟩

theorem FileTree.isUnreadable_reading {tree : FileTree} {path : Path} {e : FileError}
    (h : tree.readText path = .error e) : (tree.reading path).isUnreadable = true := by
  rw [reading, h]
  rfl

/-- A check of given files without settings prints the lines of all files that can be read, in their
order, and behind them at most its summary, just if from the first file on over which the check is
given up no file has a problem.  Each file that cannot be read makes the check fail. -/
theorem readable_files_reported_iff (request : CheckRequest) (tree : FileTree)
    (hfiles : request.files ≠ []) (hsettings : request.settingsFile = none) :
    ((∃ closing, (request.run tree).lines =
          request.files.flatMap tree.problemLines ++ closing ∧
        (closing = [] ∨ ∃ sum, closing = ["", sum])) ↔
      (request.files.dropWhile fun path => (tree.reading path).goesOn).flatMap
        tree.problemLines = []) ∧
      ((∃ path ∈ request.files, ∃ e, tree.readText path = .error e) →
        (request.run tree).exit = 1) := by
  cases hall : (request.files.map tree.reading).all FileReading.goesOn with
  | true =>
      obtain ⟨reached, hrun, hlines, htally⟩ := CheckRequest.run_finishes hfiles hsettings hall
      have hgoesOn : ∀ path ∈ request.files, (tree.reading path).goesOn = true := by
        rw [List.all_map] at hall
        exact List.all_eq_true.mp hall
      rw [hrun]
      refine ⟨⟨fun _ => ?_, fun _ => ?_⟩, ?_⟩
      · rw [List.dropWhile_eq_nil_iff.mpr hgoesOn]
        rfl
      · refine ⟨reached.summary request.files.length, ?_, Or.inr (reached.summary_eq _)⟩
        rw [← hlines]
        rfl
      · rintro ⟨path, hpath, e, he⟩
        have hpos : 0 < reached.tally.errors := by
          rw [htally]
          exact Tally.errors_pos_of_unreadable (List.mem_map_of_mem hpath)
            (FileTree.isUnreadable_reading he) {}
        exact if_pos (Or.inl hpos)
  | false =>
      obtain ⟨reached, hrun, hlines⟩ := CheckRequest.run_givesUp hfiles hsettings hall
      -- What is printed are the lines of the files before; the other files are owed theirs.
      have hsplit : request.files.flatMap tree.problemLines = reached.lines ++
          (request.files.dropWhile fun path => (tree.reading path).goesOn).flatMap
            tree.problemLines := by
        rw [hlines, ← List.flatMap_append, List.takeWhile_append_dropWhile]
      rw [hrun, hsplit]
      refine ⟨⟨?_, fun hnone => ?_⟩, fun _ => rfl⟩
      · rintro ⟨closing, hprinted, -⟩
        have hlength := congrArg List.length hprinted
        simp only [Progress.giveUp, List.length_append] at hlength
        exact List.eq_nil_of_length_eq_zero (by omega)
      · refine ⟨[], ?_, Or.inl rfl⟩
        rw [hnone, List.append_nil, List.append_nil]
        rfl

/-- A directory with a file that is no text, a grammar with two problems, and a directory. -/
def mixedFiles : FileTree where
  directory := ⟨1, ["w"]⟩
  entries := [(["w", "a.y"], .file [0xff]),
    (["w", "b.y"], .file (Utf8.encode "%%\nr : q ;".toList)), (["w", "d.y"], .directory)]

/-- The check of files of the working directory. -/
def checkOf (names : List String) : CheckRequest := { files := names.map (⟨0, [·]⟩) }

theorem missingFiles_passed :
    (∃ closing, ((checkOf ["c.y", "b.y", "d.y"]).run mixedFiles).lines =
        ["b.y:2:5: warning: Symbol 'q' is not defined",
          "b.y:2:1: information: Rule 'r' is defined but never used"] ++ closing ∧
        (closing = [] ∨ ∃ sum, closing = ["", sum])) ∧
      ((checkOf ["c.y", "b.y", "d.y"]).run mixedFiles).exit = 1 := by
  obtain ⟨hreported, hexit⟩ :=
    readable_files_reported_iff (checkOf ["c.y", "b.y", "d.y"]) mixedFiles (by decide) rfl
  have hlines : (checkOf ["c.y", "b.y", "d.y"]).files.flatMap mixedFiles.problemLines =
      ["b.y:2:5: warning: Symbol 'q' is not defined",
        "b.y:2:1: information: Rule 'r' is defined but never used"] := by decide +kernel
  have hmissing : mixedFiles.readText ⟨0, ["c.y"]⟩ = .error .missing := by decide +kernel
  refine ⟨?_, hexit ⟨⟨0, ["c.y"]⟩, by decide, .missing, hmissing⟩⟩
  rw [← hlines]
  exact hreported.mpr (by decide +kernel)

/-- A file that is no text hides the problems of the next one. -/
theorem reports_not_kept :
    ¬ ∀ (request : CheckRequest) (tree : FileTree), request.files ≠ [] →
      request.settingsFile = none →
        ∃ closing, (request.run tree).lines =
            request.files.flatMap tree.problemLines ++ closing ∧
          (closing = [] ∨ ∃ sum, closing = ["", sum]) := by
  intro h
  obtain ⟨closing, hlines, -⟩ := h (checkOf ["a.y", "b.y"]) mixedFiles (by decide) rfl
  have hrun : ((checkOf ["a.y", "b.y"]).run mixedFiles).lines = [] := by decide +kernel
  have howed : ((checkOf ["a.y", "b.y"]).files.flatMap mixedFiles.problemLines).length = 2 := by
    decide +kernel
  have hlength := congrArg List.length hlines
  rw [hrun, List.length_append, howed, List.length_nil] at hlength
  omega

end GrammarLens
