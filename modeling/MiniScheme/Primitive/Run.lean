import MiniScheme.Binary64.Arithmetic
import MiniScheme.RuntimeError
import MiniScheme.Value.Order
import MiniScheme.Value.Printed

/-!
# What primitives do

A primitive is a function from its arguments to a `Reply`, which says what is left for the evaluator to do: give a
value back, make a list or a NaN, write a line, or call a procedure. Each case of `run` is one function of the table
`PRIMITIVES`, such as `car`, `sub` or `round_builtin`, or one of those that `_pairwise` makes.

Most primitives do not mind too many arguments, and take missing ones for undefined. The nesting limit counts for
arguments that are compared or shown.

The operations that primitives are made of fail on what they are not meant for, and with a `Fault` instead of an error
of the program. It is for the tests before them to see to it that this never happens.
-/

namespace MiniScheme

/-- A failure of the host. -/
inductive Fault where
  /-- An item is taken from where a list has none. -/
  | badIndex
  /-- A list is unpacked into other than as many names as it has items. -/
  | badUnpacking
  /-- An operation gets a value of a type that it does not know. -/
  | badType
  | zeroDivision
  /-- An infinity or NaN is rounded to a whole number. -/
  | notFinite
  /-- A whole number is too great for a double. -/
  | tooGreat
  deriving DecidableEq, Repr

/-- The outcome of a primitive. -/
inductive Reply where
  | value (v : Value)
  /-- A list of these items is to be made. -/
  | newList (items : List Value)
  /-- A NaN is to be made. -/
  | newNaN
  /-- A line is to be written. -/
  | line (text : String)
  /-- A procedure is to be called. -/
  | call (procedure : Value) (args : List Value)
  | failed (error : RuntimeError)
  | nestingTooDeep
  | fault (why : Fault)
  deriving Repr

/-- What arithmetic comes to. -/
inductive Computed where
  /-- A number that is new. -/
  | new (x : Float)
  /-- A number that was there before. -/
  | old (x : Number)
  deriving Repr

namespace Computed

def toFloat : Computed → Float
  | new x => x
  | old x => x.toFloat

/-- The number as a reply. Only of NaN it matters that it is new. -/
def reply : Computed → Reply
  | new x => if x.isNaN then .newNaN else .value (.number x)
  | old x => .value (.number x)

end Computed

namespace Primitive

/-! ## Operations of the host -/

/-- What is there, or a failure. -/
def orFault {α : Type} (fault : Fault) : Option α → Except Fault α
  | some a => .ok a
  | none => .error fault

/-- The item of a list at a place. -/
def item (items : List Value) (i : Nat) : Except Fault Value := orFault .badIndex items[i]?

/-- The items of a list that is spread out. -/
def spread (v : Value) : Except Fault (List Value) := orFault .badType v.items?

/-- A value as an operand of arithmetic. -/
def operand : Value → Except Fault Number
  | .number x => .ok x
  | .boolean b => .ok (.plain (if b then 1 else 0))
  | _ => .error .badType

/-- A value as a string that is measured or joined to others. -/
def text : Value → Except Fault String
  | .string s => .ok s
  | _ => .error .badType

def quotient (x y : Float) : Except Fault Float := if y == 0 then .error .zeroDivision else .ok (x / y)

def floor (x : Float) : Except Fault Int := orFault .notFinite (Binary64.floor? x)

def ofInt (i : Int) : Except Fault Float := orFault .tooGreat (Binary64.ofInt? i)

/-! ## Parts of primitives -/

/-- Replies with what is computed, if the host does not fail. -/
def attempt {α : Type} (result : Except Fault α) (reply : α → Reply) : Reply :=
  match result with
  | .ok a => reply a
  | .error fault => .fault fault

/-- An argument, undefined if it is missing. -/
def arg (args : List Value) (i : Nat) : Value := args[i]?.getD .undefined

/-- The reply to an argument of the wrong type, which the error shows. -/
def reject (nesting : Nat) (v : Value) (error : String → RuntimeError) : Reply :=
  match v.printed? nesting with
  | some shown => .failed (error shown)
  | none => .nestingTooDeep

/-- Replies with a number if all the arguments are numbers. -/
def onNumbers (nesting : Nat) (p : Primitive) (args : List Value) (compute : List Number → Except Fault Computed) :
    Reply :=
  match args.find? (!·.isNumber) with
  | some v => reject nesting v (.notNumber p)
  | none => attempt (args.mapM operand >>= compute) Computed.reply

/-- Replies to a value and a list. -/
def onList (nesting : Nat) (p : Primitive) (args : List Value) (reply : Value → List Value → Reply) : Reply :=
  if args.length < 2 then .failed (.tooFewArguments p)
  else
    attempt (item args 0) fun first =>
      attempt (item args 1) fun second =>
        if second.items?.isSome then attempt (spread second) (reply first) else reject nesting second (.notList p)

/-- Combines the first number with each of the others in turn. By itself it stays the number that it is. -/
def reduce (f : Float → Float → Except Fault Computed) : List Number → Except Fault Computed
  | [] => .error .badUnpacking
  | x :: xs => xs.foldlM (fun result y => f result.toFloat y.toFloat) (.old x)

/-- Division that also divides by zero. -/
def divided (x y : Float) : Except Fault Computed :=
  if y == 0 then
    if x == 0 || x.isNaN then .ok (.old Binary64.nan)
    else .ok (.new (Binary64.infinity (Binary64.isNegative x != Binary64.isNegative y)))
  else (quotient x y).map .new

/-- The remainder of two numbers. Where there is none, the result is NaN. -/
def remaining : List Number → Except Fault Computed
  | [x, y] =>
    match Binary64.remainder? x y with
    | some z => .ok (.new z)
    | none => .ok (.old Binary64.nan)
  | _ => .error .badUnpacking

/-- Adds a half to a number and rounds the sum down. The sum is a double, so it may itself have been rounded; zero comes
out without a sign. -/
def rounded : List Number → Except Fault Computed
  | [x] =>
    match Binary64.parts x with
    | .finite _ _ => (floor (x.toFloat + 0.5) >>= ofInt).map .new
    | _ => .ok (.old x)
  | _ => .error .badUnpacking

def magnitude : List Number → Except Fault Computed
  | [x] => .ok (.new x.toFloat.abs)
  | _ => .error .badUnpacking

/-- Replies with the truth of a comparison. -/
def truth (p : Primitive) (result : Except Value.Obstacle Bool) : Reply :=
  match result with
  | .ok b => .value (.boolean b)
  | .error .incomparable => .failed (.incomparable p)
  | .error .nestingTooDeep => .nestingTooDeep

/-! ## The table -/

/-- What a primitive replies to its arguments. -/
def run (nesting : Nat) (p : Primitive) (args : List Value) : Reply :=
  match p with
  | multiply => onNumbers nesting p args fun xs => .ok (.new (xs.foldl (fun result x => result * x.toFloat) 1))
  | add => onNumbers nesting p args fun xs => .ok (.new (xs.foldl (fun result x => result + x.toFloat) 0))
  | subtract =>
    if args.isEmpty then .failed (.tooFewArguments p)
    else onNumbers nesting p args (reduce fun x y => .ok (.new (x - y)))
  | divide => if args.isEmpty then .failed (.tooFewArguments p) else onNumbers nesting p args (reduce divided)
  | equal => truth p (Value.pairwise (fun a b => .ok (a.same b)) args)
  | atMost => truth p (Value.pairwise (Value.compare .atMost nesting) args)
  | atLeast => truth p (Value.pairwise (Value.compare .atLeast nesting) args)
  | stringLength =>
    match arg args 0 with
    | .undefined => .value (.number (0 : Float))
    | v =>
      if v.isString then attempt (text v) fun s => .value (.number (Binary64.ofInt s.length))
      else reject nesting v (.notString p)
  | stringAppend =>
    if args.isEmpty then .failed (.tooFewArguments p)
    else
      match args.find? (!·.isString) with
      | some v => reject nesting v (.notString p)
      | none => attempt (args.mapM text) fun ss => .value (.string (String.join ss))
  | list => .newList args
  | isNull => .value (.boolean (arg args 0).isNull)
  | isList => .value (.boolean (arg args 0).items?.isSome)
  | isNumber => .value (.boolean (arg args 0).isNumber)
  | isProcedure => .value (.boolean (arg args 0).isProcedure)
  | car =>
    match arg args 0 with
    | .undefined | .null => .value .null
    | .list _ items => attempt (item items 0) .value
    | v => reject nesting v (.notList p)
  | cdr =>
    match arg args 0 with
    | .undefined | .null => .value .null
    | .list _ items => .newList items.tail
    | v => reject nesting v (.notList p)
  | cons => onList nesting p args fun head items => .newList (head :: items)
  | remainder => onNumbers nesting p [arg args 0, arg args 1] remaining
  | quote => .value (arg args 0)
  | sequence =>
    if args.isEmpty then .value .undefined else attempt (item args (args.length - 1)) .value
  | same => .value (.boolean ((arg args 0).same (arg args 1)))
  | negation => .value (.boolean (!(arg args 0).isTrue))
  | round => onNumbers nesting p [arg args 0] rounded
  | abs => onNumbers nesting p [arg args 0] magnitude
  | display =>
    match (arg args 0).printed? nesting with
    | some text => .line text
    | none => .nestingTooDeep
  | apply => onList nesting p args .call

/-! ## Arguments that have passed a test -/

/-- Where no argument is found that is not a number, all are. -/
theorem exists_numbers {args : List Value} (h : args.find? (!·.isNumber) = none) :
    ∃ xs : List Number, args = xs.map .number := by
  induction args with
  | nil => exact ⟨[], rfl⟩
  | cons v vs ih =>
    cases v with
    | number x =>
      obtain ⟨xs, rfl⟩ := ih h
      exact ⟨x :: xs, rfl⟩
    | _ => cases h

theorem exists_strings {args : List Value} (h : args.find? (!·.isString) = none) :
    ∃ ss : List String, args = ss.map .string := by
  induction args with
  | nil => exact ⟨[], rfl⟩
  | cons v vs ih =>
    cases v with
    | string s =>
      obtain ⟨ss, rfl⟩ := ih h
      exact ⟨s :: ss, rfl⟩
    | _ => cases h

theorem mapM_operand (xs : List Number) : (xs.map Value.number).mapM operand = .ok xs := by
  induction xs with
  | nil => rfl
  | cons x xs ih =>
    rw [List.map_cons, List.mapM_cons, ih]
    rfl

theorem mapM_text (ss : List String) : (ss.map Value.string).mapM text = .ok ss := by
  induction ss with
  | nil => rfl
  | cons s ss ih =>
    rw [List.map_cons, List.mapM_cons, ih]
    rfl

theorem onList_cons_cons (nesting : Nat) (p : Primitive) (first second : Value) (rest : List Value)
    (reply : Value → List Value → Reply) :
    onList nesting p (first :: second :: rest) reply =
      if second.items?.isSome then attempt (spread second) (reply first) else reject nesting second (.notList p) :=
  if_neg (Nat.not_lt.2 (Nat.le_add_left 2 rest.length))

theorem onList_of_items {second : Value} {items : List Value} (h : second.items? = some items) (nesting : Nat)
    (p : Primitive) (first : Value) (rest : List Value) (reply : Value → List Value → Reply) :
    onList nesting p (first :: second :: rest) reply = reply first items := by
  simp [onList_cons_cons, spread, orFault, attempt, h]

theorem onList_of_not_list {second : Value} (h : second.items? = none) (nesting : Nat) (p : Primitive) (first : Value)
    (rest : List Value) (reply : Value → List Value → Reply) :
    onList nesting p (first :: second :: rest) reply = reject nesting second (.notList p) := by
  simp [onList_cons_cons, h]

end Primitive
end MiniScheme
