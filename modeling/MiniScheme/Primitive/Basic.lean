/-!
# Primitives

The procedures every program starts with. What each does with its arguments is in `Primitive.run`.
-/

namespace MiniScheme

/-- The primitive procedures. -/
inductive Primitive where
  | multiply
  | add
  | subtract
  | divide
  | equal
  | atMost
  | atLeast
  | stringLength
  | stringAppend
  | list
  | isNull
  | isList
  | isNumber
  | isProcedure
  | car
  | cdr
  | cons
  | remainder
  | quote
  | sequence
  | same
  | negation
  | round
  | abs
  | display
  | apply
  deriving DecidableEq, Repr

namespace Primitive

/-- All primitives, in the order in which the global frame binds them. -/
def all : List Primitive :=
  [multiply, add, subtract, divide, equal, atMost, atLeast, stringLength, stringAppend, list, isNull, isList,
    isNumber, isProcedure, car, cdr, cons, remainder, quote, sequence, same, negation, round, abs, display, apply]

/-- The name a primitive is bound to at the start. -/
def name : Primitive → String
  | multiply => "*"
  | add => "+"
  | subtract => "-"
  | divide => "/"
  | equal => "="
  | atMost => "<="
  | atLeast => ">="
  | stringLength => "string-length"
  | stringAppend => "string-append"
  | list => "list"
  | isNull => "null?"
  | isList => "list?"
  | isNumber => "number?"
  | isProcedure => "procedure?"
  | car => "car"
  | cdr => "cdr"
  | cons => "cons"
  | remainder => "remainder"
  | quote => "quote"
  | sequence => "begin"
  | same => "equal?"
  | negation => "not"
  | round => "round"
  | abs => "abs"
  | display => "display"
  | apply => "apply"

/-- The primitive with this name. -/
def ofName? (s : String) : Option Primitive := all.find? (·.name == s)

end Primitive
end MiniScheme
