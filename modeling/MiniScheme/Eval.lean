import MiniScheme.Outcome
import MiniScheme.Primitive.Run

/-!
# Evaluation

`eval` walks an expression in a frame, in turns. The last expression of a called body or of a `let`, and the chosen
branch of an `if`, are in tail position: a turn that comes to one of them leaves it, with its frame, to the next
turn. Everything else is evaluated inside a turn, which costs one level of the nesting limit.

`eval` models the loop of `interpret`, and `turn` one round of it; `quoted` and `call` model `quoted` and
`call_procedure`.

Programs may run for ever, so `eval` also takes fuel. Going from an expression to one that is evaluated for it costs
one unit, in tail position as elsewhere.
-/

namespace MiniScheme

/-- The expressions of programs. -/
abbrev Code := Expr Atom

/-- Something that evaluates an expression in a frame. -/
abbrev Evaluator := Code → FrameId → Store → Outcome Value

/-- What a turn of evaluation comes to: a value, or an expression in tail position. -/
inductive Next where
  | value (v : Value)
  | tail (expr : Code) (frame : FrameId)
  deriving Repr

namespace Eval

/-- One level further down, if the limit allows it. -/
@[inline] def nested (eval : (nesting : Nat) → Evaluator) (nesting : Nat) : Evaluator := fun expr frame store =>
  match nesting with
  | 0 => .stopped .nestingTooDeep store
  | nesting + 1 => eval nesting expr frame store

/-- Evaluates expressions from left to right. -/
def each (eval : Evaluator) (frame : FrameId) : List Code → Store → Outcome (List Value)
  | [], store => .done [] store
  | expr :: rest, store =>
    (eval expr frame store).andThen fun value store =>
      (each eval frame rest store).andThen fun values store => .done (value :: values) store

/-- Evaluates expressions in order for the value of the last, undefined if there is none. -/
def inOrder (eval : Evaluator) (frame : FrameId) (last : Value) : List Code → Store → Outcome Value
  | [], store => .done last store
  | expr :: rest, store => (eval expr frame store).andThen fun value store => inOrder eval frame value rest store

/-- Evaluates all of a body but its last expression, which is left to the next turn. -/
def allButLast (eval : Evaluator) (frame : FrameId) (body : List Code) (store : Store) : Outcome Next :=
  (inOrder eval frame .undefined body.dropLast store).andThen fun _ store =>
    match body.getLast? with
    | some expr => .done (.tail expr frame) store
    | none => .done (.value .undefined) store

/-- The value of something quoted: calls and lists become lists, all else is evaluated. -/
def quoted (eval : (nesting : Nat) → Evaluator) : (nesting : Nat) → Evaluator
  | 0, _, _, store => .stopped .nestingTooDeep store
  | nesting + 1, expr, frame, store =>
    match expr with
    | .call callee args =>
      (each (quoted eval nesting) frame (callee :: args) store).andThen fun items store =>
        .ofPair (store.newList items)
    | .list items =>
      (each (quoted eval nesting) frame items store).andThen fun items store => .ofPair (store.newList items)
    | expr => eval nesting expr frame store

/-- Calls a procedure with arguments. The whole body of a closure is evaluated one level further down, and so is
what a primitive wants called. -/
def call (eval : (nesting : Nat) → Evaluator) (nesting : Nat) (procedure : Value) (args : List Value)
    (store : Store) : Outcome Value :=
  match procedure with
  | .closure _ lambda enclosing =>
    let (frame, store) := store.enter lambda.params args enclosing
    inOrder (nested eval nesting) frame .undefined lambda.body store
  | .primitive p =>
    match p.run nesting args with
    | .value v => .done v store
    | .newList items => .ofPair (store.newList items)
    | .newNaN => .ofPair store.newNaN
    | .line text => .done .undefined (store.writeLine text)
    | .call procedure args =>
      match nesting with
      | 0 => .stopped .nestingTooDeep store
      | nesting + 1 => call eval nesting procedure args store
    | .failed e => .stopped (.error e) store
    | .nestingTooDeep => .stopped .nestingTooDeep store
    -- nothing is reported of a failure of the host, which no session comes to
    | .fault _ => .stopped .outOfFuel store
  | other =>
    match other.printed? nesting with
    | some shown => .stopped (.error (.notProcedure shown)) store
    | none => .stopped .nestingTooDeep store

/-- What a reply of a primitive leaves to be done. -/
theorem call_primitive (eval : (nesting : Nat) → Evaluator) (n : Nat) (p : Primitive) (args : List Value)
    (store : Store) :
    call eval n (.primitive p) args store =
      match p.run n args with
      | .value v => .done v store
      | .newList items => .ofPair (store.newList items)
      | .newNaN => .ofPair store.newNaN
      | .line text => .done .undefined (store.writeLine text)
      | .call procedure args =>
        match n with
        | 0 => .stopped .nestingTooDeep store
        | n + 1 => call eval n procedure args store
      | .failed e => .stopped (.error e) store
      | .nestingTooDeep => .stopped .nestingTooDeep store
      | .fault _ => .stopped .outOfFuel store := by
  rw [call.eq_def]

theorem call_closure (eval : (nesting : Nat) → Evaluator) (n : Nat) (i : Nat) (lambda : Lambda) (enclosing : FrameId)
    (args : List Value) (store : Store) :
    call eval n (.closure i lambda enclosing) args store =
      inOrder (nested eval n) (store.enter lambda.params args enclosing).1 .undefined lambda.body
        (store.enter lambda.params args enclosing).2 := by
  rw [call.eq_def]

theorem call_notProcedure (eval : (nesting : Nat) → Evaluator) (n : Nat) {v : Value} (hv : v.isProcedure = false)
    (args : List Value) (store : Store) :
    call eval n v args store =
      match v.printed? n with
      | some shown => .stopped (.error (.notProcedure shown)) store
      | none => .stopped .nestingTooDeep store := by
  rw [call.eq_def]
  cases v <;> first | rfl | cases hv

/-- A turn that ends with a value. -/
@[inline] def finish (outcome : Outcome Value) : Outcome Next :=
  outcome.andThen fun v store => .done (.value v) store

/-- Calls a procedure in tail position: the last expression of a closure's body is left to the next turn. -/
def callInTail (eval : (nesting : Nat) → Evaluator) (nesting : Nat) (procedure : Value) (args : List Value)
    (store : Store) : Outcome Next :=
  match procedure with
  | .closure _ lambda enclosing =>
    let (frame, store) := store.enter lambda.params args enclosing
    allButLast (nested eval nesting) frame lambda.body store
  | other => finish (call eval nesting other args store)

/-- One turn of evaluation, with `eval` for what is evaluated inside it. -/
def turn (eval : (nesting : Nat) → Evaluator) (nesting : Nat) (expr : Code) (frame : FrameId) (store : Store) :
    Outcome Next :=
  let inner := nested eval nesting
  match expr with
  | .literal a => .done (.value (.ofAtom a)) store
  | .empty => .done (.value .null) store
  | .symbol name => finish (.ofExcept (store.get name.lexeme frame) store)
  | .lambda params body => finish (.ofPair (store.newClosure ⟨params, body⟩ frame))
  | .define name value =>
    (inner value frame store).andThen fun v store => .done (.value .undefined) (store.define name.lexeme v frame)
  | .assign name value =>
    (inner value frame store).andThen fun v store =>
      match store.assign name.lexeme v frame with
      | .ok store => .done (.value .undefined) store
      | .error e => .stopped (.error e) store
  | .cond test chosen otherwise =>
    (inner test frame store).andThen fun v store =>
      if v.isTrue then .done (.tail chosen frame) store
      else
        match otherwise with
        | some expr => .done (.tail expr frame) store
        | none => .done (.value .undefined) store
  | .letIn names values body =>
    (each inner frame values store).andThen fun values store =>
      let (frame, store) := store.enter (.fixed names) values frame
      allButLast inner frame body store
  | .quote datum => finish (quoted eval nesting datum frame store)
  | .list items =>
    (each (quoted eval nesting) frame items store).andThen fun items store => finish (.ofPair (store.newList items))
  | .call callee args =>
    (inner callee frame store).andThen fun procedure store =>
      (each inner frame args store).andThen fun args store => callInTail eval nesting procedure args store

/-- Goes on with what a turn has left to be done. -/
@[inline] def resume (eval : Evaluator) (next : Next) (store : Store) : Outcome Value :=
  match next with
  | .value v => .done v store
  | .tail expr frame => eval expr frame store

end Eval

/-- Evaluates an expression in a frame. -/
def eval : (fuel nesting : Nat) → Evaluator
  | 0, _, _, _, store => .stopped .outOfFuel store
  | fuel + 1, nesting, expr, frame, store =>
    (Eval.turn (eval fuel) nesting expr frame store).andThen (Eval.resume (eval fuel nesting))

end MiniScheme
