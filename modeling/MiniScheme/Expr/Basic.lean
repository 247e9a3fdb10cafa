import MiniScheme.Token.Basic

/-!
# Expressions

The trees of programs, over a type of literals.
-/

namespace MiniScheme

/-- The parameters of a lambda: some names, or one name for the list of all arguments. -/
inductive Params where
  | fixed (names : List Name)
  | variadic (name : Name)
  deriving DecidableEq, Repr

/-- Expressions. A `letIn` has its names and the values for them side by side, as a lambda has its parameters and a
call its arguments. -/
inductive Expr (α : Type) where
  | symbol (name : Name)
  | literal (value : α)
  /-- The brackets around nothing. -/
  | empty
  | call (callee : Expr α) (args : List (Expr α))
  | lambda (params : Params) (body : List (Expr α))
  | define (name : Name) (value : Expr α)
  | assign (name : Name) (value : Expr α)
  | cond (test chosen : Expr α) (otherwise : Option (Expr α))
  | letIn (names : List Name) (values body : List (Expr α))
  /-- The long form of quotation. -/
  | quote (datum : Expr α)
  /-- A quoted list. -/
  | list (items : List (Expr α))
  deriving Repr

instance {α : Type} : Inhabited (Expr α) := ⟨.empty⟩

end MiniScheme
