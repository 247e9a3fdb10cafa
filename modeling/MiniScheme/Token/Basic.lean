/-!
# Tokens

A token is a lexeme and its place in the source. Number, boolean and string tokens carry a literal, into which no
rule of the grammar looks, so its type is a parameter.
-/

namespace MiniScheme

/-- A literal that a source text can hold. -/
inductive Atom where
  | boolean (b : Bool)
  | number (x : Float)
  | string (s : String)
  deriving DecidableEq, Repr

/-- The kinds of token. `eof` marks the end of the input. -/
inductive Token.Kind (α : Type) where
  | leftBracket
  | rightBracket
  | symbol
  | number (literal : α)
  | boolean (literal : α)
  | string (literal : α)
  | quasiquote
  | quote
  | unquote
  | unquoteSplicing
  | eof
  deriving DecidableEq, Repr

/-- A kind without its literal. -/
abbrev Token.Shape := Token.Kind Unit

namespace Token.Kind

variable {α : Type}

/-- Forgets the literal. -/
def shape : Kind α → Shape
  | leftBracket => .leftBracket
  | rightBracket => .rightBracket
  | symbol => .symbol
  | number _ => .number ()
  | boolean _ => .boolean ()
  | string _ => .string ()
  | quasiquote => .quasiquote
  | quote => .quote
  | unquote => .unquote
  | unquoteSplicing => .unquoteSplicing
  | eof => .eof

/-- The literal, if there is one. -/
def literal? : Kind α → Option α
  | number v | boolean v | string v => some v
  | _ => none

/-- The name that messages call a kind by. -/
def name : Kind α → String
  | leftBracket => "LeftBracket"
  | rightBracket => "RightBracket"
  | symbol => "Symbol"
  | number _ => "Number"
  | boolean _ => "Boolean"
  | string _ => "String"
  | quasiquote => "Quasiquote"
  | quote => "Quote"
  | unquote => "Unquote"
  | unquoteSplicing => "UnquoteSplicing"
  | eof => "Eof"

/-- Whether this kind ends the input. -/
def isEof (kind : Kind α) : Bool :=
  match kind with
  | eof => true
  | _ => false

@[simp] theorem shape_eq_leftBracket {kind : Kind α} : kind.shape = .leftBracket ↔ kind = .leftBracket := by
  cases kind <;> simp [shape]

@[simp] theorem shape_eq_rightBracket {kind : Kind α} : kind.shape = .rightBracket ↔ kind = .rightBracket := by
  cases kind <;> simp [shape]

@[simp] theorem shape_eq_symbol {kind : Kind α} : kind.shape = .symbol ↔ kind = .symbol := by
  cases kind <;> simp [shape]

end Token.Kind

/-- A lexeme with its kind, the number of characters before it and the line it was read on, from zero. Tokens need
not come from a text, so their places are any integers. -/
structure Token (α : Type) where
  kind : Token.Kind α
  start : Int
  lexeme : String
  line : Int
  deriving DecidableEq, Repr

/-- The mark for the end of the input. -/
def Token.endOfInput {α : Type} (line : Int) : Token α := ⟨.eof, 0, "", line⟩

/-- A symbol in its place. -/
structure Name where
  lexeme : String
  start : Int
  line : Int
  deriving DecidableEq, Repr

/-- The symbol that a token stands for. -/
def Token.toName {α : Type} (token : Token α) : Name := ⟨token.lexeme, token.start, token.line⟩

end MiniScheme
