import MiniScheme.Path
import MiniScheme.Text.Blank
import MiniScheme.Text.DecimalDigit

/-!
# Settings

What the environment variables of the process say: how deep recursion may go, and which files to run before all
others. `recursionLimit` and `preludeFiles` model `get_recursion_limit` and `get_prelude_files`.
-/

namespace MiniScheme.Settings

/-- The variable that holds the recursion limit. -/
def recursionLimitVariable : String := "SCHEMELET_RECURSION_LIMIT"

/-- The variable that holds the prelude files. -/
def preludeVariable : String := "SCHEMELET_PRELUDE_PATH"

/-- The recursion limit if none is set. -/
def defaultRecursionLimit : Int := 10000

/-- The recursion limit cannot be set below this. -/
def leastRecursionLimit : Int := 100

/-- Numerals with more digits than this are not read. -/
def mostDigits : Nat := 4300

/-- The values of digits that may be grouped by single underscores. -/
def groupedDigits? : List Char → Option (List Nat)
  | [] => none
  | [c] => (Text.digitValue? c).map ([·])
  | c :: '_' :: rest =>
    match Text.digitValue? c, groupedDigits? rest with
    | some d, some ds => some (d :: ds)
    | _, _ => none
  | c :: rest =>
    match Text.digitValue? c, groupedDigits? rest with
    | some d, some ds => some (d :: ds)
    | _, _ => none

/-- The number that digits spell, unless they are too many. -/
def natOfDigits? (cs : List Char) : Option Nat :=
  match groupedDigits? cs with
  | some ds => if ds.length ≤ mostDigits then some (ds.foldl (fun n d => 10 * n + d) 0) else none
  | none => none

/-- A whole number: a sign perhaps, and digits of any script. -/
def readInt? : List Char → Option Int
  | '-' :: rest => (natOfDigits? rest).map fun n => -(n : Int)
  | '+' :: rest => (natOfDigits? rest).map fun n => (n : Int)
  | cs => (natOfDigits? cs).map fun n => (n : Int)

/-- The recursion limit that a variable sets. What cannot be read sets none. -/
def recursionLimit (setting : Option String) : Int :=
  match readInt? (Text.strip (setting.getD "").toList) with
  | some n => max n leastRecursionLimit
  | none => defaultRecursionLimit

/-- The files that a variable names, between colons. -/
def preludeFiles (setting : Option String) : List Path :=
  let parts := (Path.splitAt ':' (setting.getD "").toList).map Text.strip
  (parts.filter (!·.isEmpty)).map fun cs => Path.ofString (String.ofList cs)

end MiniScheme.Settings
