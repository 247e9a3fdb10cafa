import Mathlib.Data.List.Forall2
import MiniScheme.Expr.Basic

/-!
# The parts of an expression

The parts of an expression are those that are evaluated for it in its own frame. The bodies of lambdas and `let`s are
none of them, since they get a frame of their own.

* `Expr.parts` — the parts, in order.
* `Expr.Defines name e` — a `define` of the name is evaluated in the frame of the expression.
* `Expr.Alike R` — two expressions of the same form with related parts.
-/

namespace MiniScheme
namespace Expr

open List (Forall₂)

variable {α : Type}

/-- The expressions that are evaluated for this one in its own frame. -/
def parts : Expr α → List (Expr α)
  | call callee args => callee :: args
  | define _ value | assign _ value => [value]
  | cond test chosen otherwise => test :: chosen :: otherwise.toList
  | letIn _ values _ => values
  | quote datum => [datum]
  | list items => items
  | symbol _ | literal _ | empty | lambda .. => []

/-- A `define` of the name occurs in the expression outside every lambda body and every `let` body. -/
inductive Defines (name : String) : Expr α → Prop where
  | here {target : Name} {value : Expr α} (h : target.lexeme = name) : Defines name (.define target value)
  | part {e d : Expr α} (hd : d ∈ e.parts) (h : Defines name d) : Defines name e

/-- Two expressions of the same form whose parts are related. Names and bodies may be any. -/
inductive Alike (R : Expr α → Expr α → Prop) : Expr α → Expr α → Prop where
  | symbol {x y : Name} : Alike R (symbol x) (symbol y)
  | literal {a : α} : Alike R (literal a) (literal a)
  | empty : Alike R empty empty
  | call {c d : Expr α} {es ds : List (Expr α)} (hcallee : R c d) (hargs : Forall₂ R es ds) :
    Alike R (call c es) (call d ds)
  | lambda {ps qs : Params} {b c : List (Expr α)} : Alike R (lambda ps b) (lambda qs c)
  | define {x y : Name} {e d : Expr α} (hvalue : R e d) : Alike R (define x e) (define y d)
  | assign {x y : Name} {e d : Expr α} (hvalue : R e d) : Alike R (assign x e) (assign y d)
  | cond {t t' c c' : Expr α} {o o' : Option (Expr α)} (htest : R t t') (hchosen : R c c')
    (hotherwise : Option.Rel R o o') : Alike R (cond t c o) (cond t' c' o')
  | letIn {xs ys : List Name} {es ds b c : List (Expr α)} (hvalues : Forall₂ R es ds) :
    Alike R (letIn xs es b) (letIn ys ds c)
  | quote {e d : Expr α} (hdatum : R e d) : Alike R (quote e) (quote d)
  | list {es ds : List (Expr α)} (hitems : Forall₂ R es ds) : Alike R (list es) (list ds)

theorem Alike.of_parts {R : Expr α → Expr α → Prop} {e : Expr α} (h : ∀ d ∈ e.parts, R d d) : Alike R e e := by
  cases e with
  | symbol | literal | empty | lambda => constructor
  | call callee args =>
    exact .call (h _ List.mem_cons_self) (List.forall₂_same.2 fun d hd => h d (List.mem_cons_of_mem _ hd))
  | define | assign | quote => constructor; exact h _ List.mem_cons_self
  | cond test chosen otherwise =>
    refine .cond (h _ List.mem_cons_self) (h _ (List.mem_cons_of_mem _ List.mem_cons_self)) ?_
    cases otherwise with
    | none => exact .none
    | some other => exact .some (h _ (by simp [parts]))
  | letIn | list => constructor; exact List.forall₂_same.2 h

end Expr
end MiniScheme
