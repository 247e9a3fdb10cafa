/-!
# Paths

File paths as POSIX writes them, brought to a normal form: without components that change nothing, but with every
`..`, since what is above a directory depends on links.
-/

namespace MiniScheme

/-- Splits at every occurrence of a character. -/
def Path.splitAt (mark : Char) : List Char → List (List Char)
  | [] => [[]]
  | c :: rest =>
    match splitAt mark rest with
    | [] => [[c]]
    | first :: more => if c = mark then [] :: first :: more else (c :: first) :: more

/-- A path in normal form: the slashes it starts with, none, one or two, and its components. -/
structure Path where
  root : String
  components : List String
  deriving DecidableEq, Repr

namespace Path

/-- The root of a path. Exactly two slashes are a root of their own. -/
def rootOf : List Char → String
  | '/' :: '/' :: '/' :: _ => "/"
  | '/' :: '/' :: _ => "//"
  | '/' :: _ => "/"
  | _ => ""

/-- Reads a path, leaving out empty and `.` components. -/
def ofString (s : String) : Path :=
  let components := (splitAt '/' s.toList).map String.ofList
  ⟨rootOf s.toList, components.filter fun c => c != "" && c != "."⟩

/-- The text of a path. The path of no components is the current directory. -/
def toString (p : Path) : String :=
  match p.root ++ "/".intercalate p.components with
  | "" => "."
  | s => s

end Path
end MiniScheme
