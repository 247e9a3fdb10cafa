import MiniScheme.Expr.OfTokens

/-!
# The grammar

Which tokens spell which tree, as one relation without an order of reading. The grammar alone would let brackets
around a keyword be a call, and a bracket under a quotation begin any expression. Two conditions rule that out:
a call does not start with a keyword, and quoted brackets make a list.

* `Part` — a nonterminal of the grammar; `Part.Tree`, what its tokens stand for.
* `Spells n part tokens tree` — the tokens make up the part, with expressions nested no deeper than `n`.
* `Program tokens exprs` — the tokens make up a whole program.
-/

namespace MiniScheme
namespace Expr

variable {α : Type}

/-- A nonterminal of the grammar. -/
inductive Part where
  | expression
  | expressions
  /-- What stands between the brackets of an expression. -/
  | inside
  /-- What follows the keyword of a special form. -/
  | form (keyword : Keyword)
  | datum
  | binding
  | bindings
  deriving DecidableEq, Repr

/-- What the tokens of a part stand for. -/
@[reducible] def Part.Tree (α : Type) : Part → Type
  | expression | inside | form _ | datum => Expr α
  | expressions => List (Expr α)
  | binding => Name × Expr α
  | bindings => List (Name × Expr α)

/-- The tokens that may stand for the parameters of a lambda. -/
inductive SpellsParams : List (Token α) → Params → Prop where
  | variadic {t} (isSymbol : t.kind = .symbol) : SpellsParams [t] (.variadic t.toName)
  | fixed {o names c} (opens : o.kind = .leftBracket) (areSymbols : ∀ t ∈ names, t.kind = .symbol)
    (closes : c.kind = .rightBracket) : SpellsParams (o :: (names ++ [c])) (.fixed (names.map Token.toName))

/-- The rules of the grammar. -/
inductive Spells : Nat → (part : Part) → List (Token α) → part.Tree α → Prop where
  | symbol {n t} (isSymbol : t.kind = .symbol) : Spells (n + 1) .expression [t] (.symbol t.toName)
  | literal {n t v} (isLiteral : t.kind.literal? = some v) : Spells (n + 1) .expression [t] (.literal v)
  | tick {n t us d} (isQuote : t.kind = .quote) (datum : Spells n .datum us d) :
    Spells (n + 1) .expression (t :: us) d
  | brackets {n o us e c} (opens : o.kind = .leftBracket) (inside : Spells n .inside us e)
    (closes : c.kind = .rightBracket) : Spells (n + 1) .expression (o :: (us ++ [c])) e
  | empty {n} : Spells n .inside [] .empty
  | call {n us f vs es} (noKeyword : ∀ t ∈ us.head?, keyword? t = none) (callee : Spells n .expression us f)
    (args : Spells n .expressions vs es) : Spells n .inside (us ++ vs) (.call f es)
  | special {n w k us e} (word : keyword? w = some k) (form : Spells n (.form k) us e) : Spells n .inside (w :: us) e
  | lambda {n us ps vs es} (params : SpellsParams us ps) (body : Spells n .expressions vs es) :
    Spells n (.form .lambda) (us ++ vs) (.lambda ps es)
  | define {n x us e} (isSymbol : x.kind = .symbol) (value : Spells n .expression us e) :
    Spells n (.form .define) (x :: us) (.define x.toName e)
  | assign {n x us e} (isSymbol : x.kind = .symbol) (value : Spells n .expression us e) :
    Spells n (.form .assign) (x :: us) (.assign x.toName e)
  | cond {n us a vs b} (test : Spells n .expression us a) (chosen : Spells n .expression vs b) :
    Spells n (.form .cond) (us ++ vs) (.cond a b none)
  | condElse {n us a vs b ws c} (test : Spells n .expression us a) (chosen : Spells n .expression vs b)
    (other : Spells n .expression ws c) : Spells n (.form .cond) (us ++ (vs ++ ws)) (.cond a b (some c))
  | letIn {n o us bs c vs es} (opens : o.kind = .leftBracket) (bindings : Spells n .bindings us bs)
    (closes : c.kind = .rightBracket) (body : Spells n .expressions vs es) :
    Spells n (.form .letIn) (o :: (us ++ c :: vs)) (.letIn (bs.map (·.1)) (bs.map (·.2)) es)
  | quote {n us d} (datum : Spells n .datum us d) : Spells n (.form .quote) us (.quote d)
  | list {n o us es c} (opens : o.kind = .leftBracket) (items : Spells n .expressions us es)
    (closes : c.kind = .rightBracket) : Spells n .datum (o :: (us ++ [c])) (.list es)
  | other {n us e} (noBracket : ∀ t ∈ us.head?, t.kind ≠ .leftBracket) (value : Spells n .expression us e) :
    Spells n .datum us e
  | binding {n o x us e c} (opens : o.kind = .leftBracket) (isSymbol : x.kind = .symbol)
    (value : Spells n .expression us e) (closes : c.kind = .rightBracket) :
    Spells n .binding (o :: x :: (us ++ [c])) (x.toName, e)
  | noExpressions {n} : Spells n .expressions [] []
  | consExpression {n us e vs es} (head : Spells n .expression us e) (tail : Spells n .expressions vs es) :
    Spells n .expressions (us ++ vs) (e :: es)
  | noBindings {n} : Spells n .bindings [] []
  | consBinding {n us b vs bs} (head : Spells n .binding us b) (tail : Spells n .bindings vs bs) :
    Spells n .bindings (us ++ vs) (b :: bs)

/-- The tokens make up a program, nested as deep as it may be. -/
def Program (tokens : List (Token α)) (exprs : List (Expr α)) : Prop := ∃ n, Spells n .expressions tokens exprs

namespace Spells

/-- A greater limit allows all that a smaller one does. -/
theorem mono {n m : Nat} {part : Part} {us : List (Token α)} {x : part.Tree α} (h : Spells n part us x)
    (hle : n ≤ m) : Spells m part us x := by
  induction h generalizing m with
  | symbol isSymbol =>
    obtain ⟨m, rfl⟩ : ∃ k, m = k + 1 := ⟨m - 1, by omega⟩
    exact .symbol isSymbol
  | literal isLiteral =>
    obtain ⟨m, rfl⟩ : ∃ k, m = k + 1 := ⟨m - 1, by omega⟩
    exact .literal isLiteral
  | tick isQuote _ ih =>
    obtain ⟨m, rfl⟩ : ∃ k, m = k + 1 := ⟨m - 1, by omega⟩
    exact .tick isQuote (ih (by omega))
  | brackets opens _ closes ih =>
    obtain ⟨m, rfl⟩ : ∃ k, m = k + 1 := ⟨m - 1, by omega⟩
    exact .brackets opens (ih (by omega)) closes
  | empty => exact .empty
  | call noKeyword _ _ ihf iha => exact .call noKeyword (ihf hle) (iha hle)
  | special word _ ih => exact .special word (ih hle)
  | lambda params _ ih => exact .lambda params (ih hle)
  | define isSymbol _ ih => exact .define isSymbol (ih hle)
  | assign isSymbol _ ih => exact .assign isSymbol (ih hle)
  | cond _ _ iha ihb => exact .cond (iha hle) (ihb hle)
  | condElse _ _ _ iha ihb ihc => exact .condElse (iha hle) (ihb hle) (ihc hle)
  | letIn opens _ closes _ ihb ihe => exact .letIn opens (ihb hle) closes (ihe hle)
  | quote _ ih => exact .quote (ih hle)
  | list opens _ closes ih => exact .list opens (ih hle) closes
  | other noBracket _ ih => exact .other noBracket (ih hle)
  | binding opens isSymbol _ closes ih => exact .binding opens isSymbol (ih hle) closes
  | noExpressions => exact .noExpressions
  | consExpression _ _ ihh iht => exact .consExpression (ihh hle) (iht hle)
  | noBindings => exact .noBindings
  | consBinding _ _ ihh iht => exact .consBinding (ihh hle) (iht hle)

/-- An expression starts with a token, which does not close a bracket. -/
theorem expression_head {n : Nat} {us : List (Token α)} {e : Expr α} (h : Spells n .expression us e) :
    ∃ t ts, us = t :: ts ∧ t.kind ≠ .rightBracket := by
  cases h with
  | @symbol _ t isSymbol => exact ⟨t, [], rfl, by rw [isSymbol]; nofun⟩
  | @literal _ t v isLiteral =>
    refine ⟨t, [], rfl, fun hkind => ?_⟩
    rw [hkind] at isLiteral
    cases isLiteral
  | @tick _ t us _ isQuote => exact ⟨t, us, rfl, by rw [isQuote]; nofun⟩
  | @brackets _ o us _ c opens => exact ⟨o, us ++ [c], rfl, by rw [opens]; nofun⟩

theorem binding_head {n : Nat} {us : List (Token α)} {b : Name × Expr α} (h : Spells n .binding us b) :
    ∃ t ts, us = t :: ts ∧ t.kind ≠ .rightBracket := by
  cases h with
  | @binding _ o x us _ c opens => exact ⟨o, x :: (us ++ [c]), rfl, by rw [opens]; nofun⟩

theorem expressions_append {n : Nat} {us vs : List (Token α)} {es fs : List (Expr α)}
    (h : Spells n .expressions us es) (hv : Spells n .expressions vs fs) :
    Spells n .expressions (us ++ vs) (es ++ fs) := by
  induction es generalizing us with
  | nil =>
    cases h
    exact hv
  | cons e es ih =>
    cases h with
    | consExpression head tail =>
      rw [List.append_assoc]
      exact .consExpression head (ih tail)

end Spells
end Expr
end MiniScheme
