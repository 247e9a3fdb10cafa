import MiniScheme.Eval
import MiniScheme.Expr.OfTokens
import MiniScheme.Token.Lexer

/-!
# Sessions

A session runs source texts one after the other on one store, so that what one defines the next can use. A text is
scanned, read and evaluated; every error is reported and leaves the session usable.

`run` models `Interpreter.eval`; `evalAll` and `conclude` model `interpret_all`.
-/

namespace MiniScheme

/-- How far a session may go. -/
structure Limits where
  /-- The fuel of one evaluation. -/
  fuel : Nat
  /-- How deep expressions, evaluations and printed values may be nested. -/
  nesting : Nat
  deriving DecidableEq, Repr

/-- The limits that sessions have by default. -/
def Limits.standard : Limits := ⟨Nat.pow 10 18, 2500⟩

/-- The same limits, with at most a quarter of a recursion limit for nesting. -/
def Limits.capped (limits : Limits) (recursionLimit : Int) : Limits :=
  { limits with nesting := min limits.nesting (recursionLimit.toNat / 4) }

/-- What running a text came to. -/
structure Report where
  /-- The value of the text, unless the fuel ran out. -/
  value : Option Value
  /-- What the program wrote. -/
  output : String
  /-- The errors, a line each. -/
  errors : String
  deriving Repr

/-- How a value appears as the result of a text. -/
inductive Shown where
  /-- Undefined values are not shown. -/
  | nothing
  | text (s : String)
  | nestingTooDeep
  deriving DecidableEq, Repr

/-- How a value appears as a result. -/
def Value.shown (nesting : Nat) (value : Value) : Shown :=
  match value with
  | .undefined => .nothing
  | value =>
    match value.printed? nesting with
    | some s => .text s
    | none => .nestingTooDeep

namespace Session

/-- Takes the output out of the store. -/
def drain (store : Store) : String × Store := (store.output, { store with output := "" })

/-- Evaluates expressions in the global frame, in order, for the value of the last. -/
def evalAll (limits : Limits) (exprs : List Code) (store : Store) : Outcome Value :=
  Eval.inOrder (eval limits.fuel limits.nesting) Store.globalFrame .undefined exprs store

/-- The value and the error line of an outcome. A stop gives the empty list. -/
def conclude : Outcome Value → Option Value × String
  | .done value _ => (some value, "")
  | .stopped (.error e) _ => (some .null, e.message ++ "\n")
  | .stopped .nestingTooDeep _ => (some .null, RuntimeError.tooDeepMessage ++ "\n")
  | .stopped .outOfFuel _ => (none, "")

/-- The expressions of a text together with the errors in it. Of a text that cannot be scanned, the tokens before
the error are still read. -/
def readLoosely (limits : Limits) (source : String) : List Code × String :=
  let scan := Token.scan source
  let scanErrors := (scan.error.map (·.message ++ "\n")).getD ""
  let (exprs, errors) := Expr.parse limits.nesting scan.tokens
  (exprs, scanErrors ++ String.join (errors.map (·.message ++ "\n")))

/-- The expressions of a text, or the one error in it. -/
def read (limits : Limits) (source : String) : Except SyntaxError (List Code) :=
  let scan := Token.scan source
  match scan.error with
  | some e => .error e
  | none => Expr.ofTokens limits.nesting scan.tokens

/-- Runs a source text. A syntax error leaves the store as it was. -/
def run (limits : Limits) (source : String) (store : Store) : Report × Store :=
  match read limits source with
  | .error e => (⟨some .undefined, "", e.message ++ "\n"⟩, store)
  | .ok exprs =>
    let outcome := evalAll limits exprs store
    let (value, errors) := conclude outcome
    let (output, store) := drain outcome.store
    (⟨value, output, errors⟩, store)

/-- Evaluates expressions in the global frame one by one, whatever becomes of those before. -/
def evalEach (limits : Limits) : List Code → Store → List (Except Stop Value) × Store
  | [], store => ([], store)
  | expr :: rest, store =>
    match eval limits.fuel limits.nesting expr Store.globalFrame store with
    | .done value store =>
      let (results, store) := evalEach limits rest store
      (.ok value :: results, store)
    | .stopped why store =>
      let (results, store) := evalEach limits rest store
      (.error why :: results, store)

/-- Calls the procedure that a name is bound to in the global frame. -/
def callNamed (limits : Limits) (name : String) (args : List Value) (store : Store) : Outcome Value :=
  (Outcome.ofExcept (store.get name Store.globalFrame) store).andThen fun procedure store =>
    Eval.call (eval limits.fuel) limits.nesting procedure args store

end Session
end MiniScheme
