import MiniScheme.Path

/-!
# File trees

What reading a file comes to, and a tree of files and directories held in memory.
-/

namespace MiniScheme

/-- Why a file could not be read. -/
inductive FileError where
  | notFound
  | isDirectory
  | notDirectory
  | other (reason : String)
  deriving DecidableEq, Repr

/-- The words for a failure to read. -/
def FileError.reason : FileError → String
  | notFound => "No such file or directory"
  | isDirectory => "Is a directory"
  | notDirectory => "Not a directory"
  | other reason => reason

/-- The bytes of a file, or why there are none. -/
abbrev Contents := Except FileError ByteArray

/-- The files and directories below a working directory, each under its components. -/
structure FileTree where
  files : List (List String × ByteArray)
  directories : List (List String)

namespace FileTree

/-- A place in the file system. -/
inductive Place where
  | file (bytes : ByteArray)
  /-- A directory of the tree. -/
  | directory (components : List String)
  /-- A directory above the tree, of which nothing is known to lie in it. -/
  | above

/-- The place of some components, if there is one. A directory exists also through what lies in it. -/
def lookup? (tree : FileTree) (components : List String) : Option Place :=
  match tree.files.find? fun entry => entry.1 == components with
  | some (_, bytes) => some (.file bytes)
  | none =>
    let inside := tree.files.map (·.1) ++ tree.directories
    if inside.any components.isPrefixOf then some (.directory components) else none

/-- Follows components from a place. -/
def walk (tree : FileTree) : Place → List String → Except FileError Place
  | place, [] => .ok place
  | .file _, _ :: _ => .error .notDirectory
  | .above, ".." :: rest => walk tree .above rest
  | .above, _ :: _ => .error .notFound
  | .directory [], ".." :: rest => walk tree .above rest
  | .directory (c :: cs), ".." :: rest => walk tree (.directory (c :: cs).dropLast) rest
  | .directory cs, name :: rest =>
    match tree.lookup? (cs ++ [name]) with
    | some place => walk tree place rest
    | none => .error .notFound

/-- Reads the file at a path. -/
def read (tree : FileTree) (path : Path) : Contents :=
  match tree.walk (if path.root = "" then .directory [] else .above) path.components with
  | .ok (.file bytes) => .ok bytes
  | .ok _ => .error .isDirectory
  | .error e => .error e

end FileTree
end MiniScheme
