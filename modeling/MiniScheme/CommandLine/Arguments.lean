import MiniScheme.Text.DecimalDigit

/-!
# Arguments

The words of a command line: `-q`, `--quiet`, `-h`, `--help` and the names of files. Long options may be cut short,
short ones joined. All file names stand together, before, between or after the options; `--` ends the options.
-/

namespace MiniScheme.CommandLine

/-- What a word is. -/
inductive Word where
  | operand (text : String)
  /-- The word that ends the options. -/
  | separator
  | quiet
  | help
  /-- An option there is none of. -/
  | unknown
  /-- An option with a value, though none takes any. -/
  | overloaded
  /-- The beginning of more than one long option. -/
  | ambiguous
  deriving DecidableEq, Repr

namespace Word

/-- Whether a text is a minus sign and a number. Such words are no options. A line feed may follow. -/
def isNegativeNumber (cs : List Char) : Bool :=
  let isDigit (c : Char) : Bool := (Text.digitValue? c).isSome
  match cs with
  | '-' :: rest =>
    let body := if rest.getLast? = some '\n' then rest.dropLast else rest
    match body.dropWhile isDigit with
    | [] => !body.isEmpty
    | '.' :: fraction => !fraction.isEmpty && fraction.all isDigit
    | _ => false
  | _ => false

/-- A word that begins like an option and is none. -/
def notAnOption (text : String) : Word :=
  if isNegativeNumber text.toList || text.toList.contains ' ' then .operand text else .unknown

/-- A word after two dashes, in which an equals sign begins a value. -/
def long (text : String) (body : List Char) : Word :=
  let name := body.takeWhile (· != '=')
  let hasValue := decide (name.length < body.length)
  match name.isPrefixOf "quiet".toList, name.isPrefixOf "help".toList with
  | true, true => .ambiguous
  | true, false => if hasValue then .overloaded else .quiet
  | false, true => if hasValue then .overloaded else .help
  | false, false => notAnOption text

/-- The letters after one dash and a first letter that was an option; `seen` is what they have come to so far. -/
def joined (seen : Word) : List Char → Word
  | [] => seen
  | c :: rest =>
    if c = 'q' then joined seen rest
    else if c = 'h' then joined .help rest
    else if c = '-' ∨ c = '=' then .overloaded
    else if seen = .help then .help
    else .unknown

/-- What one word is, before the options end. -/
def ofString (text : String) : Word :=
  match text.toList with
  | '-' :: '-' :: [] => .separator
  | '-' :: '-' :: body => long text body
  | '-' :: 'q' :: rest => joined .quiet rest
  | '-' :: 'h' :: rest => joined .help rest
  | '-' :: _ :: _ => notAnOption text
  | _ => .operand text

/-- Whether a word is part of the file names. -/
def isOperand : Word → Bool
  | operand _ | separator => true
  | _ => false

/-- The file name that a word is. -/
def fileName? : Word → Option String
  | operand text => some text
  | _ => none

end Word

/-- Tells the words of a command line. After the first separator all are file names. -/
def words : List String → List Word
  | [] => []
  | text :: rest =>
    match Word.ofString text with
    | .separator => .separator :: rest.map .operand
    | word => word :: words rest

/-- What a command line asks for. -/
inductive Request where
  | run (quiet : Bool) (files : List String)
  | help
  | misuse
  deriving DecidableEq, Repr

/-- The file names, if all stand together and there is one at least. -/
def files? (ws : List Word) : Option (List String) :=
  let fromFirst := ws.dropWhile (!·.isOperand)
  let names := (fromFirst.takeWhile (·.isOperand)).filterMap (·.fileName?)
  if (fromFirst.dropWhile (·.isOperand)).any (·.isOperand) || names.isEmpty then none else some names

/-- Reads a command line. Ambiguity is noticed first; then the first call for help or overloaded option counts, and
last whether all words have a meaning. -/
def request (args : List String) : Request :=
  let ws := words args
  if ws.contains .ambiguous then .misuse
  else
    match ws.find? fun w => w == .help || w == .overloaded with
    | some .help => .help
    | some _ => .misuse
    | none =>
      match files? ws with
      | some names => if ws.contains .unknown then .misuse else .run (ws.contains .quiet) names
      | none => .misuse

end MiniScheme.CommandLine
