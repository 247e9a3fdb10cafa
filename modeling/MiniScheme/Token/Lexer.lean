import MiniScheme.Numeral
import MiniScheme.SyntaxError

/-!
# From text to tokens

`Piece.first` says what the characters at the head of a text are and how far they reach; `scan` repeats it over the
whole text. Each piece takes as many characters as its class allows.

`scan` and `Piece.first` model `scan` and `scan_token`, and `Piece.stringBody` and `Piece.numberRun` model `string` and
`number`.
-/

namespace MiniScheme.Token

/-- The characters of a number: digits and points. -/
def isNumberChar (c : Char) : Bool := c.isDigit || c == '.'

/-- The characters of a symbol: ASCII letters, digits and some signs. -/
def isSymbolChar (c : Char) : Bool := c.isAlphanum || "+-.*/<=>!?:$%_&~^".toList.contains c

/-- A letter, a digit or a sign. -/
theorem isSymbolChar_iff {c : Char} :
    isSymbolChar c = true ↔ ('A' ≤ c ∧ c ≤ 'Z') ∨ ('a' ≤ c ∧ c ≤ 'z') ∨ ('0' ≤ c ∧ c ≤ '9') ∨
      c ∈ ['+', '-', '.', '*', '/', '<', '=', '>', '!', '?', ':', '$', '%', '_', '&', '~', '^'] := by
  have hupper : c.isUpper = true ↔ 'A' ≤ c ∧ c ≤ 'Z' := decide_eq_true_iff
  have hlower : c.isLower = true ↔ 'a' ≤ c ∧ c ≤ 'z' :=
    Bool.and_eq_true_iff.trans (and_congr decide_eq_true_iff decide_eq_true_iff)
  have hdigit : c.isDigit = true ↔ '0' ≤ c ∧ c ≤ '9' :=
    Bool.and_eq_true_iff.trans (and_congr decide_eq_true_iff decide_eq_true_iff)
  have hkind : c.isAlphanum = (c.isUpper || c.isLower || c.isDigit) := rfl
  rw [isSymbolChar, hkind, Bool.or_eq_true, Bool.or_eq_true, Bool.or_eq_true, hupper, hlower, hdigit, or_assoc,
    or_assoc, List.contains_iff_mem]
  rfl

/-- What stands at the head of a text. A width counts the characters after the first. -/
inductive Piece where
  /-- White space within a line, or a comment. -/
  | blank (width : Nat)
  | newline
  | token (kind : Kind Atom) (width : Nat)
  /-- No piece starts here. -/
  | stray
  deriving DecidableEq, Repr

namespace Piece

/-- A string whose opening character has been read. It reaches to the next double quote or else to the end, and
nothing in it is escaped. -/
def stringBody (rest : List Char) : Piece :=
  let body := rest.takeWhile (· != '\x22')
  let closing := if body.length < rest.length then 1 else 0
  .token (.string (.string (String.ofList body))) (body.length + closing)

/-- A number that starts with the digit `c`. -/
def numberRun (c : Char) (rest : List Char) : Piece :=
  let run := rest.takeWhile isNumberChar
  .token (.number (.number (Numeral.read (c :: run)))) run.length

/-- The piece at the head of `c :: rest`. A `#` that begins no boolean opens a string. -/
def first (c : Char) (rest : List Char) : Piece :=
  if c = '(' then .token .leftBracket 0
  else if c = ')' then .token .rightBracket 0
  else if c = ' ' ∨ c = '\r' ∨ c = '\t' then .blank 0
  else if c = '\n' then .newline
  else if c = '#' then
    match rest with
    | 't' :: _ => .token (.boolean (.boolean true)) 1
    | 'f' :: _ => .token (.boolean (.boolean false)) 1
    | _ => stringBody rest
  else if c = '\x22' then stringBody rest
  else if c = ';' then .blank (rest.takeWhile (· != '\n')).length
  else if c = '\x60' then .token .quasiquote 0
  else if c = '\x27' then .token .quote 0
  else if c = ',' then
    match rest with
    | '@' :: _ => .token .unquoteSplicing 1
    | _ => .token .unquote 0
  else if c.isDigit then numberRun c rest
  else if isSymbolChar c then .token .symbol (rest.takeWhile isSymbolChar).length
  else .stray

end Piece

/-- The tokens of a text. They end with an `eof` token, unless a character that starts no piece stopped the scan. -/
structure Scan where
  tokens : List (Token Atom)
  error : Option SyntaxError
  deriving DecidableEq, Repr

/-- Scans from the character at `position` after passing over `skip` more characters of the piece read last. The
tokens read so far are in `done`, the latest first. A line break inside a string is passed over uncounted. -/
def scanFrom (done : List (Token Atom)) (skip position line : Nat) : List Char → Scan
  | [] => ⟨(endOfInput line :: done).reverse, none⟩
  | c :: rest =>
    match skip with
    | skip + 1 => scanFrom done skip (position + 1) line rest
    | 0 =>
      match Piece.first c rest with
      | .blank width => scanFrom done width (position + 1) line rest
      | .newline => scanFrom done 0 (position + 1) (line + 1) rest
      | .token kind width =>
        let token : Token Atom := ⟨kind, position, String.ofList (c :: rest.take width), line⟩
        scanFrom (token :: done) width (position + 1) line rest
      | .stray => ⟨done.reverse, some ⟨line, .unknownCharacter c⟩⟩

/-- Scans a source text. -/
def scan (source : String) : Scan := scanFrom [] 0 0 0 source.toList

end MiniScheme.Token
