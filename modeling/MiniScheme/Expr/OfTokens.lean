import MiniScheme.Expr.Basic
import MiniScheme.SyntaxError

/-!
# From tokens to expressions

The grammar, in which an opening bracket before one of the six keywords always begins that special form:

    program    => expression*
    expression => "(" ")" | form | "(" expression expression* ")" | "'" datum | symbol | literal
    form       => "(" "lambda" ( symbol | "(" symbol* ")" ) expression* ")"
                | "(" "define" symbol expression ")"
                | "(" "set!" symbol expression ")"
                | "(" "if" expression expression expression? ")"
                | "(" "let" "(" ( "(" symbol expression ")" )* ")" expression* ")"
                | "(" "quote" datum ")"
    datum      => "(" expression* ")" | expression

Each rule reads from the front of the tokens and never looks further than one token ahead. A nested expression
costs one level of the nesting limit.

`expression`, `binding` and `datum` model `expression`, `let_binding` and `quote_value`, and the cases of `form` model
the functions in the table `special_forms`.
-/

namespace MiniScheme

/-- The words that begin a special form. -/
inductive Keyword where
  | lambda | define | cond | assign | letIn | quote
  deriving DecidableEq, Repr

/-- The keyword that a lexeme spells. -/
def Keyword.ofLexeme? (lexeme : String) : Option Keyword :=
  if lexeme = "lambda" then some .lambda
  else if lexeme = "define" then some .define
  else if lexeme = "if" then some .cond
  else if lexeme = "set!" then some .assign
  else if lexeme = "let" then some .letIn
  else if lexeme = "quote" then some .quote
  else none

/-- The word of a keyword. -/
def Keyword.word : Keyword → String
  | lambda => "lambda"
  | define => "define"
  | cond => "if"
  | assign => "set!"
  | letIn => "let"
  | quote => "quote"

/-- **A lexeme spells a keyword exactly if it is its word.** -/
theorem Keyword.ofLexeme?_eq_some {lexeme : String} {k : Keyword} : ofLexeme? lexeme = some k ↔ lexeme = k.word := by
  constructor
  · fun_cases ofLexeme? lexeme <;> rintro ⟨⟩ <;> assumption
  · rintro rfl
    cases k <;> rfl

namespace Expr

variable {α β : Type}

/-- Why a rule stopped. -/
inductive Failure.Cause (α : Type) where
  /-- No expression starts with the next token. -/
  | unexpected
  /-- The input ended inside a form. -/
  | unclosed
  /-- After `last` a token of kind `wanted` has to come. -/
  | expected (last : Token α) (wanted : Token.Shape)
  | nestingTooDeep

/-- A failed rule: the cause, and the tokens that were not read, the offending one first. -/
structure Failure (α : Type) where
  cause : Failure.Cause α
  unread : List (Token α)

/-- What a rule read, the last token it read and the tokens after that. -/
structure Parsed (α β : Type) where
  value : β
  last : Token α
  unread : List (Token α)

/-- A rule of the grammar. -/
abbrev Rule (α β : Type) := List (Token α) → Except (Failure α) (Parsed α β)

/-- Reads the one token of a given kind that may follow `last`. -/
def expect (wanted : Token.Shape) (last : Token α) : Rule α Unit
  | [] => .error ⟨.expected last wanted, []⟩
  | token :: unread =>
    if token.kind.shape = wanted then .ok ⟨(), token, unread⟩
    else .error ⟨.expected last wanted, token :: unread⟩

/-- Reads the symbol that has to follow `last`. -/
def expectName (last : Token α) (tokens : List (Token α)) : Except (Failure α) (Parsed α Name) :=
  match expect .symbol last tokens with
  | .ok name => .ok ⟨name.last.toName, name.last, name.unread⟩
  | .error e => .error e

/-- Reads parts up to the closing bracket, in front of which `done` have been read, the latest first. `part last`
reads one after the token `last`; `missing last` is the cause if the input ends there. Each part has a token at
least, so as many rounds as there are tokens suffice. -/
def untilClosed (part : Token α → Rule α β) (missing : Token α → Failure.Cause α) (done : List β) :
    Nat → Token α → Rule α (List β)
  | 0, last, tokens => .error ⟨missing last, tokens⟩
  | rounds + 1, last, tokens =>
    match tokens with
    | [] => .error ⟨missing last, []⟩
    | token :: unread =>
      if token.kind.shape = .rightBracket then .ok ⟨done.reverse, token, unread⟩
      else
        match part last (token :: unread) with
        | .ok next => untilClosed part missing (next.value :: done) rounds next.last next.unread
        | .error e => .error e

/-- Reads symbols up to the closing bracket. -/
def names (rounds : Nat) (last : Token α) : Rule α (List Name) :=
  untilClosed expectName (.expected · .symbol) [] rounds last

/-- Reads expressions up to the closing bracket. -/
def items (item : Rule α (Expr α)) (rounds : Nat) (last : Token α) : Rule α (List (Expr α)) :=
  untilClosed (fun _ => item) (fun _ => .unclosed) [] rounds last

/-- One bracketed name and value of a `let`, after `last`. -/
def binding (item : Rule α (Expr α)) (last : Token α) (tokens : List (Token α)) :
    Except (Failure α) (Parsed α (Name × Expr α)) := do
  let opening ← expect .leftBracket last tokens
  let name ← expectName opening.last opening.unread
  let value ← item name.unread
  let closing ← expect .rightBracket value.last value.unread
  return ⟨(name.value, value.value), closing.last, closing.unread⟩

/-- Reads the bindings of a `let` up to the closing bracket. -/
def bindings (item : Rule α (Expr α)) (rounds : Nat) (last : Token α) : Rule α (List (Name × Expr α)) :=
  untilClosed (binding item) (.expected · .leftBracket) [] rounds last

/-- What stands under a quotation: brackets make a list of it, also before a keyword. -/
def datum (item : Rule α (Expr α)) (rounds : Nat) (tokens : List (Token α)) :
    Except (Failure α) (Parsed α (Expr α)) :=
  match tokens with
  | [] => item []
  | token :: unread =>
    if token.kind.shape = .leftBracket then do
      let all ← items item rounds token unread
      return ⟨.list all.value, all.last, all.unread⟩
    else item (token :: unread)

/-- The parameters of a lambda, after `last`. -/
def params (rounds : Nat) (last : Token α) (tokens : List (Token α)) : Except (Failure α) (Parsed α Params) :=
  match expectName last tokens with
  | .ok name => .ok ⟨.variadic name.value, name.last, name.unread⟩
  | .error _ => do
    let opening ← expect .leftBracket last tokens
    let fixed ← names rounds opening.last opening.unread
    return ⟨.fixed fixed.value, fixed.last, fixed.unread⟩

/-- The rest of a `define` or `set!` after its keyword. -/
def nameAndValue (item : Rule α (Expr α)) (word : Token α) (tokens : List (Token α)) :
    Except (Failure α) (Parsed α (Name × Expr α)) := do
  let name ← expectName word tokens
  let value ← item name.unread
  let closing ← expect .rightBracket value.last value.unread
  return ⟨(name.value, value.value), closing.last, closing.unread⟩

/-- The last branch of an `if` that has one. -/
def otherwise (item : Rule α (Expr α)) (last : Token α) (tokens : List (Token α)) :
    Except (Failure α) (Parsed α (Option (Expr α))) :=
  match expect .rightBracket last tokens with
  | .ok _ => .ok ⟨none, last, tokens⟩
  | .error _ => do
    let branch ← item tokens
    return ⟨some branch.value, branch.last, branch.unread⟩

/-- The rest of a special form after its keyword. -/
def form (item : Rule α (Expr α)) (rounds : Nat) (keyword : Keyword) (word : Token α) (tokens : List (Token α)) :
    Except (Failure α) (Parsed α (Expr α)) := do
  match keyword with
  | .lambda =>
    let head ← params rounds word tokens
    let body ← items item rounds head.last head.unread
    return ⟨.lambda head.value body.value, body.last, body.unread⟩
  | .define =>
    let rest ← nameAndValue item word tokens
    return ⟨.define rest.value.1 rest.value.2, rest.last, rest.unread⟩
  | .assign =>
    let rest ← nameAndValue item word tokens
    return ⟨.assign rest.value.1 rest.value.2, rest.last, rest.unread⟩
  | .cond =>
    let test ← item tokens
    let chosen ← item test.unread
    let other ← otherwise item chosen.last chosen.unread
    let closing ← expect .rightBracket other.last other.unread
    return ⟨.cond test.value chosen.value other.value, closing.last, closing.unread⟩
  | .letIn =>
    let opening ← expect .leftBracket word tokens
    let pairs ← bindings item rounds opening.last opening.unread
    let body ← items item rounds pairs.last pairs.unread
    return ⟨.letIn (pairs.value.map (·.1)) (pairs.value.map (·.2)) body.value, body.last, body.unread⟩
  | .quote =>
    let quoted ← datum item rounds tokens
    let closing ← expect .rightBracket quoted.last quoted.unread
    return ⟨.quote quoted.value, closing.last, closing.unread⟩

/-- The keyword that a token is, as a symbol. -/
def keyword? (token : Token α) : Option Keyword :=
  if token.kind.shape = .symbol then Keyword.ofLexeme? token.lexeme else none

/-- The rest of a call after its opening bracket. -/
def callRest (item : Rule α (Expr α)) (rounds : Nat) (tokens : List (Token α)) :
    Except (Failure α) (Parsed α (Expr α)) := do
  let callee ← item tokens
  let args ← items item rounds callee.last callee.unread
  return ⟨.call callee.value args.value, args.last, args.unread⟩

/-- The rest of an expression after its opening bracket: nothing, a special form or a call. -/
def bracketed (item : Rule α (Expr α)) (rounds : Nat) (tokens : List (Token α)) :
    Except (Failure α) (Parsed α (Expr α)) :=
  match tokens with
  | [] => callRest item rounds []
  | token :: unread =>
    if token.kind.shape = .rightBracket then .ok ⟨.empty, token, unread⟩
    else
      match keyword? token with
      | some keyword => form item rounds keyword token unread
      | none => callRest item rounds (token :: unread)

/-- Reads one expression that is nested no deeper than the limit. `rounds` is at least the number of tokens. -/
def expression (rounds : Nat) : (nesting : Nat) → Rule α (Expr α)
  | 0, tokens => .error ⟨.nestingTooDeep, tokens⟩
  | nesting + 1, tokens =>
    match tokens with
    | [] => .error ⟨.unexpected, []⟩
    | token :: unread =>
      match token.kind with
      | .leftBracket => bracketed (expression rounds nesting) rounds unread
      | .symbol => .ok ⟨.symbol token.toName, token, unread⟩
      | .number v | .boolean v | .string v => .ok ⟨.literal v, token, unread⟩
      | .quote => datum (expression rounds nesting) rounds unread
      | _ => .error ⟨.unexpected, token :: unread⟩

/-- Reads expressions to the end of the tokens. As many rounds as there are tokens suffice. -/
def programFrom (item : Rule α (Expr α)) (done : List (Expr α)) :
    Nat → List (Token α) → Except (Failure α) (List (Expr α))
  | _, [] => .ok done.reverse
  | 0, token :: unread => .error ⟨.unexpected, token :: unread⟩
  | rounds + 1, token :: unread =>
    match item (token :: unread) with
    | .ok next => programFrom item (next.value :: done) rounds next.unread
    | .error e => .error e

/-- Reads a whole program. -/
def program (nesting : Nat) (tokens : List (Token α)) : Except (Failure α) (List (Expr α)) :=
  programFrom (expression tokens.length nesting) [] tokens.length tokens

/-- The line that the end of the tokens is on: that of the first `eof` token or, if there is none, of the last
token. -/
def endLine (tokens : List (Token α)) : Int :=
  match tokens.find? (·.kind.isEof) with
  | some token => token.line
  | none => (tokens.getLast?.map (·.line)).getD 0

/-- The report of a failure. A missing token is put on the line of the token before it, all else on the line of the
first token that was not read. -/
def Failure.toError (failure : Failure α) (endLine : Int) : SyntaxError :=
  let next := failure.unread.head?
  let line := (next.map (·.line)).getD endLine
  match failure.cause with
  | .unexpected => ⟨line, .unexpected ((next.map (·.kind.shape)).getD .eof)⟩
  | .unclosed => ⟨line, .unclosed⟩
  | .expected last wanted => ⟨last.line, .expected last.kind.shape wanted⟩
  | .nestingTooDeep => ⟨line, .nestingTooDeep⟩

/-- The tokens before the first `eof` token. -/
def beforeEof (tokens : List (Token α)) : List (Token α) := tokens.takeWhile fun token => !token.kind.isEof

/-- The expressions that tokens spell up to the first `eof` token. -/
def ofTokens (nesting : Nat) (tokens : List (Token α)) : Except SyntaxError (List (Expr α)) :=
  match program nesting (beforeEof tokens) with
  | .ok exprs => .ok exprs
  | .error failure => .error (failure.toError (endLine tokens))

/-- The expressions that tokens spell, and the errors to report: where there is one, there are no expressions. -/
def parse (nesting : Nat) (tokens : List (Token α)) : List (Expr α) × List SyntaxError :=
  match ofTokens nesting tokens with
  | .ok exprs => (exprs, [])
  | .error e => ([], [e])

end Expr
end MiniScheme
