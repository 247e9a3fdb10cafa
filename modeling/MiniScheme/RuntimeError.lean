import MiniScheme.Primitive.Basic

/-!
# Runtime errors

Why a program could not go on. Values in messages are kept in their printed form.
-/

namespace MiniScheme

inductive RuntimeError where
  /-- A name is read or assigned that no frame in reach binds. -/
  | unbound (name : String)
  /-- Something that is no procedure is called. -/
  | notProcedure (shown : String)
  /-- A primitive on numbers gets something else. -/
  | notNumber (primitive : Primitive) (shown : String)
  /-- A primitive on strings gets something else. -/
  | notString (primitive : Primitive) (shown : String)
  /-- A primitive on lists gets something else. -/
  | notList (primitive : Primitive) (shown : String)
  /-- Two values have no order. -/
  | incomparable (primitive : Primitive)
  /-- A primitive gets too few arguments. -/
  | tooFewArguments (primitive : Primitive)
  deriving DecidableEq, Repr

namespace RuntimeError

/-- How many arguments a primitive asks for. -/
def requirement : Primitive → String
  | .cons => "2 arguments"
  | .apply => "2 arguments: a procedure and a list of arguments"
  | _ => "at least 1 argument"

/-- What a primitive asks of its string arguments. -/
def stringRule : Primitive → String
  | .stringLength => "string-length expects a string"
  | p => s!"All arguments to {p.name} must be strings"

/-- What a primitive asks of its list argument. -/
def listRule : Primitive → String
  | .cons => "Second argument to cons must be a list"
  | .apply => "Second argument to apply must be a list"
  | p => s!"{p.name} expects a list"

/-- The words for an error. -/
def reason : RuntimeError → String
  | unbound name => s!"Unknown identifier: {name}"
  | notProcedure shown => s!"Cannot call {shown}"
  | notNumber p shown => s!"All arguments to {p.name} must be numbers, got {shown}"
  | notString p shown => s!"{stringRule p}, got {shown}"
  | notList p shown => s!"{listRule p}, got {shown}"
  | incomparable p => s!"Cannot compare arguments to {p.name}"
  | tooFewArguments p => s!"{p.name} requires {requirement p}"

/-- The line of text that reports an error. -/
def message (e : RuntimeError) : String := s!"Error: {e.reason}"

/-- The line of text that reports that evaluation went beyond the nesting limit. -/
def tooDeepMessage : String := "Error: maximum recursion depth exceeded"

end RuntimeError
end MiniScheme
