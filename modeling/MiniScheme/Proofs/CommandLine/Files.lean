import MiniScheme.CommandLine.Batch
import MiniScheme.Proofs.Session.Widening

/-!
# A batch of files is a session of their texts

Running files one after the other is what a session makes of their texts, up to the first file that cannot be read.
Asking for quiet takes the results out of the output and changes nothing else.

* `textOf`, `readable` — the text of a file, and the texts of a list of files up to one that cannot be read.
* `Alike` — two batches that differ in their output alone.
* `runBatch_alike` — a batch that is asked to be quiet is like one that is not.
* `runBatch_session` — output, errors, store and ending of a batch, quiet or not, from the reports of the session.
-/

namespace MiniScheme

/-- The line that shows the result of a text. There is none for a value that is absent. -/
def Report.resultLine (nesting : Nat) (report : Report) : String :=
  match report.answer nesting with
  | some (.text s) => s ++ "\n"
  | _ => ""

namespace CommandLine

/-! ## Texts of files -/

/-- The text of a file or why it cannot be read, if what is read is a text. -/
def textOf : Contents → Option (Except FileError String)
  | .error e => some (.error e)
  | .ok bytes => (decode? bytes).map .ok

/-- The texts of the files before the first that cannot be read, and this one with the reason. -/
def readable (texts : String → Except FileError String) : List String → List String × Option (String × FileError)
  | [] => ([], none)
  | name :: rest =>
    match texts name with
    | .error e => ([], some (name, e))
    | .ok source =>
      let (sources, failure) := readable texts rest
      (source :: sources, failure)

/-- The line about a file that cannot be read. -/
def failureLine : Option (String × FileError) → String
  | none => ""
  | some (name, e) => name ++ ": " ++ e.reason ++ "\n"

theorem decode?_toUTF8 (s : String) : decode? s.toUTF8 = some (Text.lineFeeds s) := by
  have hs : String.fromUTF8? s.toUTF8 = some s := dif_pos s.isValidUTF8
  rw [decode?, hs]
  rfl

theorem textOf_toUTF8 (s : String) : textOf (.ok s.toUTF8) = some (.ok (Text.lineFeeds s)) := by
  rw [textOf, decode?_toUTF8, Option.map_some]

theorem ok_of_textOf {contents : Contents} {source : String} (h : textOf contents = some (.ok source)) :
    ∃ bytes, contents = .ok bytes ∧ decode? bytes = some source := by
  cases contents with
  | error e => cases h
  | ok bytes =>
    obtain ⟨text, htext, heq⟩ := Option.map_eq_some_iff.mp h
    cases heq
    exact ⟨bytes, rfl, htext⟩

theorem error_of_textOf {contents : Contents} {e : FileError} (h : textOf contents = some (.error e)) :
    contents = .error e := by
  cases contents with
  | error e' => cases h; rfl
  | ok bytes =>
    obtain ⟨_, _, heq⟩ := Option.map_eq_some_iff.mp h
    cases heq

/-! ## One file -/

variable {limits : Limits} {read : Path → Contents} {quiet : Bool} {progress : Progress} {name source : String}

/-- Runs the next file of a batch. -/
def step (limits : Limits) (read : Path → Contents) (quiet : Bool) (progress : Progress) (name : String) : Progress :=
  progress.next (runFile limits quiet name (read (Path.ofString name)))

/-- What a text that came to its end writes as a file of a batch. -/
def written (limits : Limits) (quiet : Bool) (report : Report) : String :=
  report.output ++ if quiet then "" else report.resultLine limits.nesting

theorem written_quiet : written limits true = Report.output := funext fun _ => String.append_empty

theorem step_ended {ending : Ending} (h : progress.ended = some ending) :
    step limits read quiet progress name = progress := by
  simp only [step, Progress.next, h]

/-- **Nothing is done after the end of a batch.** -/
theorem foldl_step_ended {ending : Ending} (h : progress.ended = some ending) :
    ∀ names : List String, names.foldl (step limits read quiet) progress = progress
  | [] => rfl
  | _ :: rest => by rw [List.foldl_cons, step_ended h, foldl_step_ended h rest]

/-- A file that cannot be read ends the batch with a line. -/
theorem step_unreadable {e : FileError} (hended : progress.ended = none)
    (htext : textOf (read (Path.ofString name)) = some (.error e)) :
    step limits read quiet progress name =
      ⟨progress.output, progress.errors ++ failureLine (some (name, e)), progress.store, some (.exit 1)⟩ := by
  simp only [step, Progress.next, hended, error_of_textOf htext, runFile, String.append_empty, failureLine]

section
variable {report : Report} {store : Store}

/-- A file whose text comes to an end writes what its text writes and its result. -/
theorem step_text (hended : progress.ended = none) (htext : textOf (read (Path.ofString name)) = some (.ok source))
    (hrun : Session.run limits source progress.store = (report, store)) (hvalue : report.value ≠ none)
    (hshown : report.answer limits.nesting ≠ some .nestingTooDeep) :
    step limits read quiet progress name =
      ⟨progress.output ++ written limits quiet report, progress.errors ++ report.errors, store, none⟩ := by
  obtain ⟨bytes, hbytes, hdecode⟩ := ok_of_textOf htext
  obtain ⟨value, hsome⟩ := Option.ne_none_iff_exists'.mp hvalue
  have hanswer : report.answer limits.nesting = some (value.shown limits.nesting) := by
    rw [Report.answer, hsome, Option.map_some]
  rw [hanswer] at hshown
  simp only [step, Progress.next, hended, hbytes, runFile, hdecode, hrun, hsome, written, Report.resultLine, hanswer]
  cases hcase : value.shown limits.nesting with
  | nestingTooDeep => exact absurd (congrArg some hcase) hshown
  | nothing => simp
  | text s => rfl

/-- A file whose text runs out of fuel ends the batch. -/
theorem step_outOfFuel (hended : progress.ended = none)
    (htext : textOf (read (Path.ofString name)) = some (.ok source))
    (hrun : Session.run limits source progress.store = (report, store)) (hvalue : report.value = none) :
    (step limits read quiet progress name).ended = some .outOfFuel := by
  obtain ⟨bytes, hbytes, hdecode⟩ := ok_of_textOf htext
  simp only [step, Progress.next, hended, hbytes, runFile, hdecode, hrun, hvalue]

end

/-! ## Quiet batches -/

/-- Two batches that differ in their output alone. -/
structure Alike (loud silent : Progress) : Prop where
  errors : loud.errors = silent.errors
  store : loud.store = silent.store
  ended : loud.ended = silent.ended

theorem runFile_alike (limits : Limits) (name : String) (contents : Contents) (store : Store) :
    Alike (runFile limits false name contents store) (runFile limits true name contents store) := by
  unfold runFile
  cases contents with
  | error e => exact ⟨rfl, rfl, rfl⟩
  | ok bytes =>
    dsimp only
    cases decode? bytes with
    | none => exact ⟨rfl, rfl, rfl⟩
    | some source =>
      dsimp only
      cases (Session.run limits source store).1.value with
      | none => exact ⟨rfl, rfl, rfl⟩
      | some value =>
        -- Whether the result can be shown is found out in both, so that they end alike.
        dsimp only
        cases value.shown limits.nesting <;> exact ⟨rfl, rfl, rfl⟩

theorem step_alike {loud silent : Progress} (h : Alike loud silent) (name : String) :
    Alike (step limits read false loud name) (step limits read true silent name) := by
  unfold step Progress.next
  rw [h.ended]
  cases hended : silent.ended with
  | some ending => exact h
  | none =>
    have hfile := runFile_alike limits name (read (Path.ofString name)) silent.store
    rw [h.store]
    exact ⟨congrArg₂ (· ++ ·) h.errors hfile.errors, hfile.store, hfile.ended⟩

theorem foldl_step_alike : ∀ (names : List String) {loud silent : Progress}, Alike loud silent →
    Alike (names.foldl (step limits read false) loud) (names.foldl (step limits read true) silent)
  | [], _, _, h => h
  | name :: rest, _, _, h => foldl_step_alike rest (step_alike h name)

/-- **Asking for quiet changes nothing but the output**, whatever the files are and however the batch ends. -/
theorem runBatch_alike (limits : Limits) (read : Path → Contents) (preludes : List Path) (names : List String) :
    Alike (runBatch limits read preludes false names) (runBatch limits read preludes true names) :=
  foldl_step_alike names ⟨rfl, rfl, rfl⟩

/-! ## Batches and sessions -/

section
variable {texts : String → Except FileError String} {names sources : List String}
  {failure : Option (String × FileError)} {reports : List Report} {store : Store}

/-- **Files whose texts come to an end**: each writes what its text writes and its result, and the first that cannot
be read ends the batch. -/
theorem foldl_step_session (hended : progress.ended = none)
    (htexts : ∀ name ∈ names, textOf (read (Path.ofString name)) = some (texts name))
    (hread : readable texts names = (sources, failure))
    (hsession : Session.runAll limits sources progress.store = (reports, store))
    (hvalue : ∀ report ∈ reports, report.value ≠ none)
    (hshown : ∀ report ∈ reports, report.answer limits.nesting ≠ some .nestingTooDeep) :
    names.foldl (step limits read quiet) progress =
      ⟨progress.output ++ String.join (reports.map (written limits quiet)),
        progress.errors ++ String.join (reports.map (·.errors)) ++ failureLine failure, store,
        failure.map fun _ => .exit 1⟩ := by
  induction names generalizing progress sources reports with
  | nil =>
    cases hread
    cases hsession
    simp [failureLine, ← hended]
  | cons name rest ih =>
    obtain ⟨htext, htexts⟩ := List.forall_mem_cons.mp htexts
    cases hcase : texts name with
    | error e =>
      rw [hcase] at htext
      simp only [readable, hcase] at hread
      cases hread
      cases hsession
      rw [List.foldl_cons, step_unreadable hended htext, foldl_step_ended rfl]
      simp
    | ok source =>
      rw [hcase] at htext
      simp only [readable, hcase] at hread
      cases hread
      cases hsession
      obtain ⟨hvalue, hvalues⟩ := List.forall_mem_cons.mp hvalue
      obtain ⟨hshown, hshowns⟩ := List.forall_mem_cons.mp hshown
      rw [List.foldl_cons, step_text hended htext rfl hvalue hshown, ih rfl htexts rfl rfl hvalues hshowns]
      simp [String.append_assoc]

/-- **A text that runs out of fuel ends the batch.** -/
theorem foldl_step_outOfFuel (hended : progress.ended = none)
    (htexts : ∀ name ∈ names, textOf (read (Path.ofString name)) = some (texts name))
    (hread : readable texts names = (sources, failure))
    (hsession : Session.runAll limits sources progress.store = (reports, store))
    (hvalue : ∃ report ∈ reports, report.value = none)
    (hshown : ∀ report ∈ reports, report.answer limits.nesting ≠ some .nestingTooDeep) :
    (names.foldl (step limits read quiet) progress).ended = some .outOfFuel := by
  induction names generalizing progress sources reports with
  | nil =>
    cases hread
    cases hsession
    simp at hvalue
  | cons name rest ih =>
    obtain ⟨htext, htexts⟩ := List.forall_mem_cons.mp htexts
    cases hcase : texts name with
    | error e =>
      simp only [readable, hcase] at hread
      cases hread
      cases hsession
      simp at hvalue
    | ok source =>
      rw [hcase] at htext
      simp only [readable, hcase] at hread
      cases hread
      cases hsession
      obtain ⟨hshown, hshowns⟩ := List.forall_mem_cons.mp hshown
      rw [List.foldl_cons]
      cases hfirst : (Session.run limits source progress.store).1.value with
      | none =>
        have hout : (step limits read quiet progress name).ended = some .outOfFuel :=
          step_outOfFuel hended htext rfl hfirst
        rw [foldl_step_ended hout, hout]
      | some value =>
        have hne : (Session.run limits source progress.store).1.value ≠ none := by simp [hfirst]
        rw [step_text hended htext rfl hne hshown]
        exact ih rfl htexts rfl rfl ((List.exists_mem_cons_iff ..).mp hvalue |>.resolve_left hne) hshowns

/-- **Running files is running their texts in one session**, in order and up to the first file that cannot be read,
after the same prelude files. Such a file ends the batch with one line about it and the exit code 1; otherwise the exit
code is 0. A batch that is not quiet writes the result of each text, if there is one, right after what the text itself
has written. One that is quiet writes no results; its errors, its store and its ending are the same in any case.

The prelude files come to an end, what is read are texts, and no result is nested too deep to be shown. A text that
runs out of fuel ends both batches. -/
theorem runBatch_session {preludes : List Path} {made : Progress} (hmade : runPreludes limits read preludes = made)
    (hended : made.ended = none)
    (htexts : ∀ name ∈ names, textOf (read (Path.ofString name)) = some (texts name))
    (hread : readable texts names = (sources, failure))
    (hsession : Session.runAll limits sources made.store = (reports, store))
    (hshown : ∀ report ∈ reports, report.answer limits.nesting ≠ some .nestingTooDeep) :
    Alike (runBatch limits read preludes false names) (runBatch limits read preludes true names) ∧
      ((∃ report ∈ reports, report.value = none) →
        ∀ quiet, (runBatch limits read preludes quiet names).ending = .outOfFuel) ∧
      ((∀ report ∈ reports, report.value ≠ none) →
        (runBatch limits read preludes false names).output =
            made.output ++ String.join (reports.map fun r => r.output ++ r.resultLine limits.nesting) ∧
          (runBatch limits read preludes true names).output = made.output ++ String.join (reports.map (·.output)) ∧
          ∀ quiet,
            (runBatch limits read preludes quiet names).errors =
                made.errors ++ String.join (reports.map (·.errors)) ++ failureLine failure ∧
              (runBatch limits read preludes quiet names).store = store ∧
              (runBatch limits read preludes quiet names).ending = .exit (if failure.isSome then 1 else 0)) := by
  subst hmade
  refine ⟨runBatch_alike limits read preludes names, fun hvalue quiet => ?_, fun hvalue => ?_⟩
  · have hout : (runBatch limits read preludes quiet names).ended = some .outOfFuel :=
      foldl_step_outOfFuel hended htexts hread hsession hvalue hshown
    exact congrArg (·.getD (.exit 0)) hout
  · have hbatch (quiet : Bool) : runBatch limits read preludes quiet names = _ :=
      foldl_step_session hended htexts hread hsession hvalue hshown
    refine ⟨?_, ?_, fun quiet => ⟨?_, ?_, ?_⟩⟩
    · rw [hbatch]
      rfl
    · rw [hbatch, written_quiet]
    · rw [hbatch]
    · rw [hbatch]
    · rw [hbatch]
      cases failure <;> rfl

end

/-- A prelude file that defines a list and displays it, and files that use it. -/
def pairTexts : String → Except FileError String
  | "prelude.scm" => .ok "(define l (list #t)) (display l)"
  | "defs.scm" => .ok "(define pair (lambda (x) (list x x)))"
  | "prog.scm" => .ok "(display car) (pair l)"
  | "bad.scm" => .ok "(pair m)"
  | "late.scm" => .ok "(display #f)"
  | _ => .error .notFound

/-- Reads one of these files. -/
def pairRead (path : Path) : Contents := (pairTexts path.toString).map String.toUTF8

/-- The files of a command line, of which the fourth is missing. -/
def pairNames : List String := ["defs.scm", "prog.scm", "bad.scm", "none.scm", "late.scm"]

/-- The texts of the files before the missing one. -/
def pairSources : List String := ["(define pair (lambda (x) (list x x)))", "(display car) (pair l)", "(pair m)"]

/-- What the prelude file leaves. -/
def pairMade : Progress := ⟨"(#t)\n", "", (Session.run ⟨30, 10⟩ "(define l (list #t)) (display l)" .initial).2, none⟩

/-- What the texts come to. -/
def pairReports : List Report :=
  [⟨some .undefined, "", ""⟩,
    ⟨some (.list 2 [.list 0 [.boolean true], .list 0 [.boolean true]]), "PrimitiveProcedure\n", ""⟩,
    ⟨some .null, "", "Error: Unknown identifier: m\n"⟩]

theorem runBatch_session_pair :
    let batch (quiet : Bool) := runBatch ⟨30, 10⟩ pairRead [Path.ofString "prelude.scm"] quiet pairNames
    runPreludes ⟨30, 10⟩ pairRead [Path.ofString "prelude.scm"] = pairMade ∧ pairMade.ended = none ∧
      (∀ name ∈ pairNames, textOf (pairRead (Path.ofString name)) = some (pairTexts name)) ∧
      readable pairTexts pairNames = (pairSources, some ("none.scm", .notFound)) ∧
      (Session.runAll ⟨30, 10⟩ pairSources pairMade.store).1 = pairReports ∧
      (∀ report ∈ pairReports, report.answer 10 ≠ some .nestingTooDeep) ∧
      (∀ report ∈ pairReports, report.value ≠ none) ∧
      (batch false).output = "(#t)\nPrimitiveProcedure\n((#t) (#t))\n()\n" ∧
      (batch true).output = "(#t)\nPrimitiveProcedure\n" ∧
      ∀ quiet, (batch quiet).errors = "Error: Unknown identifier: m\nnone.scm: No such file or directory\n" ∧
        (batch quiet).ending = .exit 1 := by
  intro batch
  have hmade : runPreludes ⟨30, 10⟩ pairRead [Path.ofString "prelude.scm"] = pairMade := by
    have hread : pairRead (Path.ofString "prelude.scm") = .ok "(define l (list #t)) (display l)".toUTF8 := rfl
    have hdecode : decode? "(define l (list #t)) (display l)".toUTF8 = some "(define l (list #t)) (display l)" :=
      decode?_toUTF8 _
    simp only [runPreludes, List.foldl_cons, List.foldl_nil, Progress.start, Progress.next, hread, runPrelude, hdecode]
    rfl
  have htexts : ∀ name ∈ pairNames, textOf (pairRead (Path.ofString name)) = some (pairTexts name) := by
    simp only [pairNames, List.forall_mem_cons]
    exact ⟨textOf_toUTF8 _, textOf_toUTF8 _, textOf_toUTF8 _, rfl, textOf_toUTF8 _, nofun⟩
  have hread : readable pairTexts pairNames = (pairSources, some ("none.scm", .notFound)) := rfl
  have hreports : (Session.runAll ⟨30, 10⟩ pairSources pairMade.store).1 = pairReports := rfl
  have hsession : Session.runAll ⟨30, 10⟩ pairSources pairMade.store =
      (pairReports, (Session.runAll ⟨30, 10⟩ pairSources pairMade.store).2) := by rw [← hreports]
  have hshown : ∀ report ∈ pairReports, report.answer 10 ≠ some .nestingTooDeep := by
    simp only [pairReports, List.forall_mem_cons]
    exact ⟨nofun, nofun, nofun, nofun⟩
  have hvalue : ∀ report ∈ pairReports, report.value ≠ none := by simp [pairReports]
  obtain ⟨-, -, hcomplete⟩ := runBatch_session hmade rfl htexts hread hsession hshown
  obtain ⟨hloud, hsilent, hboth⟩ := hcomplete hvalue
  exact ⟨hmade, rfl, htexts, hread, hreports, hshown, hvalue, hloud, hsilent, fun quiet =>
    ⟨(hboth quiet).1, (hboth quiet).2.2⟩⟩

end CommandLine
end MiniScheme
