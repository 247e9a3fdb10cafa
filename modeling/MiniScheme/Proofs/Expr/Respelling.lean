import MiniScheme.Proofs.Expr.Parts
import MiniScheme.Value.Basic

/-!
# Names spelt in another way

A lambda can be written down with other names. To respell it is to change the lexeme of every name in it, of parameters,
symbols, `let` bindings, definitions and assignments alike, whatever the name refers to.

* `Expr.lexemes`, `Lambda.lexemes` — the lexemes of the names that occur.
* `Expr.respelt f`, `Lambda.respelt f` — every lexeme changed by `f`.
* `Expr.alike_respelt` — an expression and the respelt one have the same form.
* `spelling x y` — to spell `x` as `y` and leave all else as it is.
-/

namespace MiniScheme

open List (Forall₂)

variable {α : Type}

/-! ## Names and parameters -/

/-- The name with its lexeme changed. It stays in its place. -/
def Name.respelt (f : String → String) (name : Name) : Name := { name with lexeme := f name.lexeme }

theorem Name.respelt_id : Name.respelt id = id := rfl

theorem lexemes_respelt (f : String → String) (names : List Name) :
    (names.map (Name.respelt f)).map (·.lexeme) = (names.map (·.lexeme)).map f := by
  rw [List.map_map, List.map_map]
  rfl

namespace Params

/-- The lexemes of the parameters. -/
def lexemes : Params → List String
  | fixed names => names.map (·.lexeme)
  | variadic name => [name.lexeme]

/-- The parameters with their lexemes changed. -/
def respelt (f : String → String) : Params → Params
  | fixed names => fixed (names.map (Name.respelt f))
  | variadic name => variadic (name.respelt f)

theorem respelt_id (params : Params) : params.respelt id = params := by
  cases params with
  | fixed names => rw [respelt, Name.respelt_id, List.map_id]
  | variadic name => rfl

end Params

/-! ## Expressions -/

namespace Expr

mutual
/-- The lexemes of all names in the expression. -/
def lexemes : Expr α → List String
  | symbol name => [name.lexeme]
  | literal _ | empty => []
  | call callee args => callee.lexemes ++ lexemesAll args
  | lambda params body => params.lexemes ++ lexemesAll body
  | define name value | assign name value => name.lexeme :: value.lexemes
  | cond test chosen otherwise => test.lexemes ++ chosen.lexemes ++ lexemesOption otherwise
  | letIn names values body => names.map (·.lexeme) ++ lexemesAll values ++ lexemesAll body
  | quote datum => datum.lexemes
  | list items => lexemesAll items
/-- The lexemes of all names in the expressions. -/
def lexemesAll : List (Expr α) → List String
  | [] => []
  | e :: es => e.lexemes ++ lexemesAll es
/-- The lexemes of all names in the expression, if there is one. -/
def lexemesOption : Option (Expr α) → List String
  | none => []
  | some e => e.lexemes
end

mutual
/-- The expression with the lexemes of its names changed. -/
def respelt (f : String → String) : Expr α → Expr α
  | symbol name => symbol (name.respelt f)
  | literal v => literal v
  | empty => empty
  | call callee args => call (callee.respelt f) (respeltAll f args)
  | lambda params body => lambda (params.respelt f) (respeltAll f body)
  | define name value => define (name.respelt f) (value.respelt f)
  | assign name value => assign (name.respelt f) (value.respelt f)
  | cond test chosen otherwise => cond (test.respelt f) (chosen.respelt f) (respeltOption f otherwise)
  | letIn names values body => letIn (names.map (Name.respelt f)) (respeltAll f values) (respeltAll f body)
  | quote datum => quote (datum.respelt f)
  | list items => list (respeltAll f items)
/-- The expressions with the lexemes of their names changed. -/
def respeltAll (f : String → String) : List (Expr α) → List (Expr α)
  | [] => []
  | e :: es => e.respelt f :: respeltAll f es
/-- The expression, if there is one, with the lexemes of its names changed. -/
def respeltOption (f : String → String) : Option (Expr α) → Option (Expr α)
  | none => none
  | some e => some (e.respelt f)
end

@[simp] theorem respeltAll_eq_map (f : String → String) (es : List (Expr α)) :
    respeltAll f es = es.map (respelt f) := by
  induction es with
  | nil => rfl
  | cons e es ih => rw [respeltAll, ih, List.map_cons]

mutual
/-- With every lexeme left as it is, so is the expression. -/
theorem respelt_id : ∀ e : Expr α, e.respelt id = e
  | symbol _ | literal _ | empty => rfl
  | call callee args => by rw [respelt, respelt_id callee, respeltAll_id args]
  | lambda params body => by rw [respelt, params.respelt_id, respeltAll_id body]
  | define name value => by rw [respelt, respelt_id value, Name.respelt_id, id]
  | assign name value => by rw [respelt, respelt_id value, Name.respelt_id, id]
  | cond test chosen otherwise => by
    rw [respelt, respelt_id test, respelt_id chosen, respeltOption_id otherwise]
  | letIn names values body => by
    rw [respelt, Name.respelt_id, List.map_id, respeltAll_id values, respeltAll_id body]
  | quote datum => by rw [respelt, respelt_id datum]
  | list items => by rw [respelt, respeltAll_id items]
theorem respeltAll_id : ∀ es : List (Expr α), respeltAll id es = es
  | [] => rfl
  | e :: es => by rw [respeltAll, respelt_id e, respeltAll_id es]
theorem respeltOption_id : ∀ e : Option (Expr α), respeltOption id e = e
  | none => rfl
  | some e => by rw [respeltOption, respelt_id e]
end

/-! ## Parts -/

theorem subset_lexemesAll {e : Expr α} {es : List (Expr α)} (he : e ∈ es) : e.lexemes ⊆ lexemesAll es := by
  induction es with
  | nil => cases he
  | cons d es ih =>
    rw [lexemesAll]
    rcases List.mem_cons.1 he with rfl | he
    · exact List.subset_append_left _ _
    · exact List.Subset.trans (ih he) (List.subset_append_right _ _)

/-- The names in a part occur in the whole. -/
theorem lexemes_subset_of_mem_parts {d e : Expr α} (hd : d ∈ e.parts) : d.lexemes ⊆ e.lexemes := by
  cases e with
  | symbol | literal | empty | lambda => cases hd
  | call callee args =>
    rw [lexemes]
    rcases List.mem_cons.1 hd with rfl | hd
    · exact List.subset_append_left _ _
    · exact List.Subset.trans (subset_lexemesAll hd) (List.subset_append_right _ _)
  | define name value | assign name value =>
    cases List.mem_singleton.1 hd
    exact List.subset_cons_self _ _
  | cond test chosen otherwise =>
    rw [lexemes, List.append_assoc]
    rcases List.mem_cons.1 hd with rfl | hd
    · exact List.subset_append_left _ _
    · rcases List.mem_cons.1 hd with rfl | hd
      · exact List.Subset.trans (List.subset_append_left _ _) (List.subset_append_right _ _)
      · cases Option.mem_toList.1 hd
        exact List.Subset.trans (List.subset_append_right _ _) (List.subset_append_right _ _)
  | letIn names values body =>
    rw [lexemes]
    exact List.Subset.trans (subset_lexemesAll hd)
      (List.Subset.trans (List.subset_append_right _ _) (List.subset_append_left _ _))
  | quote datum =>
    cases List.mem_singleton.1 hd
    exact List.Subset.refl _
  | list items => exact subset_lexemesAll hd

/-- **An expression and the respelt one have the same form**, and parts that go together. -/
theorem alike_respelt {R : Expr α → Expr α → Prop} (f : String → String) {e : Expr α}
    (h : ∀ d ∈ e.parts, R d (d.respelt f)) : Alike R e (e.respelt f) := by
  have hmap {es : List (Expr α)} (hes : ∀ d ∈ es, R d (d.respelt f)) : Forall₂ R es (respeltAll f es) := by
    rw [respeltAll_eq_map]
    exact List.forall₂_map_right_iff.2 (List.forall₂_same.2 hes)
  cases e with
  | symbol | literal | empty | lambda => constructor
  | call callee args => exact .call (h _ List.mem_cons_self) (hmap fun d hd => h d (List.mem_cons_of_mem _ hd))
  | define | assign | quote =>
    constructor
    exact h _ List.mem_cons_self
  | cond test chosen otherwise =>
    refine .cond (h _ List.mem_cons_self) (h _ (List.mem_cons_of_mem _ List.mem_cons_self)) ?_
    cases otherwise with
    | none => exact .none
    | some other => exact .some (h _ (by simp [parts]))
  | letIn | list =>
    constructor
    exact hmap h

end Expr

/-! ## Lambdas -/

namespace Lambda

/-- The lexemes of all names in the lambda. -/
def lexemes (lambda : Lambda) : List String := lambda.params.lexemes ++ Expr.lexemesAll lambda.body

/-- The lambda with the lexemes of its names changed. -/
def respelt (f : String → String) (lambda : Lambda) : Lambda :=
  ⟨lambda.params.respelt f, lambda.body.map (Expr.respelt f)⟩

theorem respelt_id (lambda : Lambda) : lambda.respelt id = lambda := by
  rw [respelt, lambda.params.respelt_id, ← Expr.respeltAll_eq_map, Expr.respeltAll_id]

end Lambda

/-- To spell `x` as `y`. -/
def spelling (x y : String) (name : String) : String := if name = x then y else name

end MiniScheme
