import MiniScheme.CommandLine.Arguments
import MiniScheme.FileTree
import MiniScheme.Session
import MiniScheme.Settings
import MiniScheme.Text.Lines

/-!
# Running files

A batch runs files one after the other in one session: first the prelude files that there are, then those of the
command line, whose results are printed. The first of these that cannot be read ends it. `runBatch` models what `main`
does with the files it is given, and `runFile` models `run_file`.
-/

namespace MiniScheme.CommandLine

/-- How a batch ends. -/
inductive Ending where
  | exit (code : Nat)
  /-- A file is no UTF-8 text. -/
  | undecodable
  /-- A result is nested too deep to be printed. -/
  | nestingTooDeep
  | outOfFuel
  deriving DecidableEq, Repr

/-- What a part of a batch wrote and reported, the store it left, and how it ended the batch if it did. -/
structure Progress where
  output : String
  errors : String
  store : Store
  ended : Option Ending

namespace Progress

/-- Nothing done yet. -/
def start (store : Store) : Progress := ⟨"", "", store, none⟩

/-- Does the next part, unless the batch has ended. -/
def next (progress : Progress) (part : Store → Progress) : Progress :=
  match progress.ended with
  | some _ => progress
  | none =>
    let after := part progress.store
    ⟨progress.output ++ after.output, progress.errors ++ after.errors, after.store, after.ended⟩

end Progress

/-- The text of a file. -/
def decode? (bytes : ByteArray) : Option String := (String.fromUTF8? bytes).map Text.lineFeeds

/-- Runs a prelude file. One that cannot be read is passed over. -/
def runPrelude (limits : Limits) (contents : Contents) (store : Store) : Progress :=
  match contents with
  | .error _ => .start store
  | .ok bytes =>
    match decode? bytes with
    | none => ⟨"", "", store, some .undecodable⟩
    | some source =>
      let (report, store) := Session.run limits source store
      match report.value with
      | some _ => ⟨report.output, report.errors, store, none⟩
      | none => ⟨report.output, report.errors, store, some .outOfFuel⟩

/-- Runs a file of the command line and prints its result, unless asked to be quiet. -/
def runFile (limits : Limits) (quiet : Bool) (name : String) (contents : Contents) (store : Store) : Progress :=
  match contents with
  | .error e => ⟨"", name ++ ": " ++ e.reason ++ "\n", store, some (.exit 1)⟩
  | .ok bytes =>
    match decode? bytes with
    | none => ⟨"", "", store, some .undecodable⟩
    | some source =>
      let (report, store) := Session.run limits source store
      match report.value with
      | none => ⟨report.output, report.errors, store, some .outOfFuel⟩
      | some value =>
        match value.shown limits.nesting with
        | .nestingTooDeep => ⟨report.output, report.errors, store, some .nestingTooDeep⟩
        | .nothing => ⟨report.output, report.errors, store, none⟩
        | .text s =>
          let printed := if quiet then "" else s ++ "\n"
          ⟨report.output ++ printed, report.errors, store, none⟩

/-- Runs the prelude files in a new session. -/
def runPreludes (limits : Limits) (read : Path → Contents) (preludes : List Path) : Progress :=
  preludes.foldl (fun progress path => progress.next (runPrelude limits (read path))) (.start .initial)

/-- Runs the prelude files and then the files of the command line. -/
def runBatch (limits : Limits) (read : Path → Contents) (preludes : List Path) (quiet : Bool)
    (files : List String) : Progress :=
  files.foldl (fun progress name => progress.next (runFile limits quiet name (read (Path.ofString name))))
    (runPreludes limits read preludes)

/-- How a batch that ran to its end or was ended went. -/
def Progress.ending (progress : Progress) : Ending := progress.ended.getD (.exit 0)

end MiniScheme.CommandLine
