import MiniScheme.Proofs.Expr.ValidPrefix

/-!
# Reading with a cursor

The rules of the grammar once more, as a reader that keeps all tokens and moves a cursor over them. Nothing stops such
a reader from looking where there is no token or from going round a loop for ever, so it takes down what it does, and
its loops are given a number of rounds.

* `Act` — one thing that the reader does; `Act.Safe`, what it must not do.
* `Run`, `Reader` — what a rule comes to from a place, and a rule.
* `Reader.parse` — reads a whole program and reports the error in it.
-/

namespace MiniScheme
namespace Expr

variable {α β γ : Type}

/-- What a reader does with its cursor. Places count from zero. -/
inductive Act where
  /-- It looks at the token in a place. -/
  | look (place : Nat)
  /-- With the cursor in a place, it looks at the token before. -/
  | lookBack (place : Nat)
  /-- It moves the cursor to a place. -/
  | move (place : Nat)
  /-- It has read a part, from one place to another. -/
  | finish (part : Part) (start stop : Nat)
  deriving DecidableEq, Repr

/-- The reader looks at tokens only, looks back only if it has passed one, never passes the first mark for the end, and
reads no part that is empty. -/
def Act.Safe (tokens : List (Token α)) : Act → Prop
  | look place => place < tokens.length
  | lookBack place => 0 < place
  | move place => place ≤ tokens.findIdx (·.kind.isEof)
  | finish _ start stop => start < stop

/-- Why a run ends without a result. -/
inductive Halt where
  | refused (e : SyntaxError)
  | nestingTooDeep
  /-- There was no token in a place. -/
  | outOfTokens
  /-- A loop needed more rounds than it had. -/
  | outOfRounds
  deriving DecidableEq, Repr

/-- What reading came to, where the cursor is and what was done, the earliest first. -/
structure Run (β : Type) where
  result : Except Halt β
  place : Nat
  acts : List Act

/-- A rule that reads some of the tokens from a place on. -/
def Reader (α β : Type) : Type := List (Token α) → Nat → Run β

namespace Reader

instance : Monad (Reader α) where
  pure b := fun _ place => ⟨.ok b, place, []⟩
  bind reader next := fun tokens place =>
    let first := reader tokens place
    match first.result with
    | .error why => ⟨.error why, first.place, first.acts⟩
    | .ok b =>
      let second := next b tokens first.place
      ⟨second.result, second.place, first.acts ++ second.acts⟩

def halt (why : Halt) : Reader α β := fun _ place => ⟨.error why, place, []⟩

/-- Goes on after a halt. -/
def recover (reader : Reader α β) (handler : Halt → Reader α β) : Reader α β := fun tokens place =>
  let first := reader tokens place
  match first.result with
  | .ok _ => first
  | .error why =>
    let second := handler why tokens first.place
    ⟨second.result, second.place, first.acts ++ second.acts⟩

/-- Takes down from where to where a part has been read. -/
def noting (part : Part) (reader : Reader α β) : Reader α β := fun tokens place =>
  let run := reader tokens place
  match run.result with
  | .ok _ => { run with acts := run.acts ++ [.finish part place run.place] }
  | .error _ => run

/-! ## The cursor -/

/-- The token at the cursor. -/
def peek : Reader α (Token α) := fun tokens place =>
  match tokens[place]? with
  | some token => ⟨.ok token, place, [.look place]⟩
  | none => ⟨.error .outOfTokens, place, [.look place]⟩

/-- The token before the cursor. Before the first place is the last one. -/
def previous : Reader α (Token α) := fun tokens place =>
  match if place = 0 then tokens.getLast? else tokens[place - 1]? with
  | some token => ⟨.ok token, place, [.lookBack place]⟩
  | none => ⟨.error .outOfTokens, place, [.lookBack place]⟩

/-- Moves the cursor, wherever it is. -/
def step : Reader α Unit := fun _ place => ⟨.ok (), place + 1, [.move (place + 1)]⟩

def atEnd : Reader α Bool := do return (← peek).kind.isEof

def check (wanted : Token.Shape) : Reader α Bool := do return decide ((← peek).kind.shape = wanted)

/-- Passes the next token if it is of the given kind. -/
def accept (wanted : Token.Shape) : Reader α Bool := do
  if ← check wanted then
    step
    return true
  else return false

/-- Passes the next token, unless it is the mark for the end. -/
def advance : Reader α (Token α) := do
  if ← atEnd then previous
  else
    step
    previous

/-- Passes the one token of a given kind that may stand here. -/
def consume (wanted : Token.Shape) : Reader α (Token α) := do
  if ← check wanted then advance
  else
    let last ← previous
    halt (.refused ⟨last.line, .expected last.kind.shape wanted⟩)

/-- Passes the next token if it has a literal. -/
def acceptLiteral : Reader α (Option α) := do
  if (← peek).kind.literal?.isSome then
    step
    return (← previous).kind.literal?
  else return none

/-! ## The rules -/

/-- Reads parts up to the closing bracket. -/
def untilClosed (part : Reader α β) (done : List β) : (rounds : Nat) → Reader α (List β)
  | 0 => halt .outOfRounds
  | rounds + 1 => do
    if ← accept .rightBracket then return done.reverse
    else
      let next ← part
      untilClosed part (next :: done) rounds

def name : Reader α Name := do return (← consume .symbol).toName

section

variable (item : Reader α (Expr α)) (rounds : Nat)

/-- One expression of a form that is to be closed. -/
def itemBeforeEnd : Reader α (Expr α) := do
  if ← atEnd then
    let token ← peek
    halt (.refused ⟨token.line, .unclosed⟩)
  else item

def items : Reader α (List (Expr α)) := untilClosed (itemBeforeEnd item) [] rounds

def nameAndValue : Reader α (Name × Expr α) := do
  let name ← name
  let value ← item
  let _ ← consume .rightBracket
  return (name, value)

def binding : Reader α (Name × Expr α) := noting .binding do
  let _ ← consume .leftBracket
  nameAndValue item

def datum : Reader α (Expr α) := noting .datum do
  if ← accept .leftBracket then
    let all ← items item rounds
    return .list all
  else item

def params : Reader α Params := do
  if ← accept .symbol then
    let token ← previous
    return .variadic token.toName
  else
    let _ ← consume .leftBracket
    let names ← untilClosed name [] rounds
    return .fixed names

def lambda : Reader α (Expr α) := do
  let head ← params rounds
  let body ← items item rounds
  return .lambda head body

/-- The last branch of an `if`, which may be missing. -/
def otherwise : Reader α (Option (Expr α)) := do
  if ← check .rightBracket then return none
  else
    let branch ← item
    return some branch

def cond : Reader α (Expr α) := do
  let test ← item
  let chosen ← item
  let other ← otherwise item
  let _ ← consume .rightBracket
  return .cond test chosen other

def letIn : Reader α (Expr α) := do
  let _ ← consume .leftBracket
  let pairs ← untilClosed (binding item) [] rounds
  let body ← items item rounds
  return .letIn (pairs.map (·.1)) (pairs.map (·.2)) body

def quote : Reader α (Expr α) := do
  let quoted ← datum item rounds
  let _ ← consume .rightBracket
  return .quote quoted

/-- A special form from its keyword on. -/
def form (keyword : Keyword) : Reader α (Expr α) := do
  let _ ← advance
  match keyword with
  | .lambda => lambda item rounds
  | .define =>
    let pair ← nameAndValue item
    return .define pair.1 pair.2
  | .assign =>
    let pair ← nameAndValue item
    return .assign pair.1 pair.2
  | .cond => cond item
  | .letIn => letIn item rounds
  | .quote => quote item rounds

def call : Reader α (Expr α) := do
  let callee ← item
  let args ← items item rounds
  return .call callee args

/-- An expression after its opening bracket. -/
def bracketed : Reader α (Expr α) := do
  if ← accept .rightBracket then return .empty
  else
    let token ← peek
    match keyword? token with
    | some keyword => form item rounds keyword
    | none => call item rounds

/-- An expression that no bracket opens. -/
def atom : Reader α (Expr α) := do
  if ← accept .symbol then
    let token ← previous
    return .symbol token.toName
  else
    match ← acceptLiteral with
    | some v => return .literal v
    | none =>
      if ← accept .quote then datum item rounds
      else
        let token ← peek
        halt (.refused ⟨token.line, .unexpected token.kind.shape⟩)

end

/-- One expression. -/
def expression (rounds : Nat) : (nesting : Nat) → Reader α (Expr α)
  | 0 => halt .nestingTooDeep
  | nesting + 1 => noting .expression do
    if ← accept .leftBracket then bracketed (expression rounds nesting) rounds
    else atom (expression rounds nesting) rounds

/-- Expressions up to the mark for the end. -/
def programFrom (item : Reader α (Expr α)) (done : List (Expr α)) : (rounds : Nat) → Reader α (List (Expr α))
  | 0 => halt .outOfRounds
  | rounds + 1 => do
    if ← atEnd then return done.reverse
    else
      let next ← item
      programFrom item (next :: done) rounds

/-- The report of a halt. One at the nesting limit has the line of the token at the cursor. -/
def report : Halt → Reader α (List (Expr α) × List SyntaxError)
  | .refused e => return ([], [e])
  | .nestingTooDeep => do
    let token ← peek
    return ([], [⟨token.line, .nestingTooDeep⟩])
  | why => halt why

/-- The expressions that the tokens spell, and the errors to report. -/
def parse (rounds nesting : Nat) : Reader α (List (Expr α) × List SyntaxError) :=
  recover (do return (← programFrom (expression rounds nesting) [] rounds, [])) report

end Reader
end Expr
end MiniScheme
