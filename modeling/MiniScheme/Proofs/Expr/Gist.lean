import MiniScheme.Proofs.Expr.Places

/-!
# The gist of an expression

A datum may be quoted by the sign or by the form. The tree of the one is the datum itself, that of the other has a
quotation around it. The gist of an expression is what is left if that quotation is dropped wherever it stands around a
datum, and the places of names are forgotten.

* `Expr.isDatum` — the trees of what stands under a quotation.
* `Expr.gist` — the expression without places and without quotations of data.
* `Expr.bare` — the datum of a quotation of one, and any other expression as it is.
* `Expr.matches_bare` — bare expressions of the same gist have the same form, and parts of the same gist.
-/

namespace MiniScheme

theorem Name.lexeme_eq {x y : Name} (h : y.unplaced = x.unplaced) : y.lexeme = x.lexeme := by
  rw [← y.unplaced_lexeme, h, x.unplaced_lexeme]

theorem Name.unplaced_unplaced (name : Name) : name.unplaced.unplaced = name.unplaced := rfl

theorem Params.unplaced_unplaced (params : Params) : params.unplaced.unplaced = params.unplaced := by
  cases params with
  | fixed names =>
    unfold unplaced
    dsimp only
    rw [List.map_map]
    rfl
  | variadic => rfl

namespace Expr

variable {α : Type}

/-- A symbol, a literal or a list, as they stand under a quotation. -/
def isDatum : Expr α → Bool
  | symbol _ | literal _ | list _ => true
  | _ => false

mutual
/-- The expression without the places of its names and without quotations of data. -/
def gist : Expr α → Expr α
  | symbol name => symbol name.unplaced
  | literal v => literal v
  | empty => empty
  | call callee args => call callee.gist (gistAll args)
  | lambda params body => lambda params.unplaced (gistAll body)
  | define name value => define name.unplaced value.gist
  | assign name value => assign name.unplaced value.gist
  | cond test chosen otherwise => cond test.gist chosen.gist (gistOption otherwise)
  | letIn names values body => letIn (names.map Name.unplaced) (gistAll values) (gistAll body)
  | quote datum => if datum.isDatum then datum.gist else quote datum.gist
  | list items => list (gistAll items)
/-- The gists of the expressions. -/
def gistAll : List (Expr α) → List (Expr α)
  | [] => []
  | e :: es => e.gist :: gistAll es
/-- The gist of the expression, if there is one. -/
def gistOption : Option (Expr α) → Option (Expr α)
  | none => none
  | some e => some e.gist
end

@[simp] theorem gistAll_eq_map (es : List (Expr α)) : gistAll es = es.map gist := by
  induction es with
  | nil => rfl
  | cons e es ih => rw [gistAll, ih, List.map_cons]

@[simp] theorem gistOption_eq_map (e : Option (Expr α)) : gistOption e = e.map gist := by
  cases e <;> rfl

theorem gist_quote_of_isDatum {d : Expr α} (hd : d.isDatum = true) : (quote d).gist = d.gist := by
  rw [gist, if_pos hd]

theorem gist_quote_of_not {d : Expr α} (hd : ¬d.isDatum = true) : (quote d).gist = quote d.gist := by
  rw [gist, if_neg hd]

/-! ## Places -/

theorem isDatum_unplaced (e : Expr α) : e.unplaced.isDatum = e.isDatum := by
  cases e <;> rfl

mutual
/-- The gist does not depend on places. -/
theorem gist_unplaced : ∀ e : Expr α, e.unplaced.gist = e.gist
  | symbol _ | literal _ | empty => rfl
  | call callee args => by rw [unplaced, gist, gist, gist_unplaced callee, gistAll_unplaced args]
  | lambda params body => by rw [unplaced, gist, gist, params.unplaced_unplaced, gistAll_unplaced body]
  | define name value => by rw [unplaced, gist, gist, name.unplaced_unplaced, gist_unplaced value]
  | assign name value => by rw [unplaced, gist, gist, name.unplaced_unplaced, gist_unplaced value]
  | cond test chosen otherwise => by
    rw [unplaced, gist, gist, gist_unplaced test, gist_unplaced chosen, gistOption_unplaced otherwise]
  | letIn names values body => by
    rw [unplaced, gist, gist, gistAll_unplaced values, gistAll_unplaced body, List.map_map]
    rfl
  | quote datum => by rw [unplaced, gist, gist, isDatum_unplaced, gist_unplaced datum]
  | list items => by rw [unplaced, gist, gist, gistAll_unplaced items]
theorem gistAll_unplaced : ∀ es : List (Expr α), gistAll (unplacedAll es) = gistAll es
  | [] => rfl
  | e :: es => by rw [unplacedAll, gistAll, gistAll, gist_unplaced e, gistAll_unplaced es]
theorem gistOption_unplaced : ∀ e : Option (Expr α), gistOption (unplacedOption e) = gistOption e
  | none => rfl
  | some e => by rw [unplacedOption, gistOption, gistOption, gist_unplaced e]
end

/-- Expressions that differ in places only have the same gist. -/
theorem map_gist_of_unplaced {es fs : List (Expr α)} (h : es.map unplaced = fs.map unplaced) :
    es.map gist = fs.map gist := by
  have hgist (es : List (Expr α)) : es.map gist = (es.map unplaced).map gist := by
    rw [List.map_map]
    exact List.map_congr_left fun e _ => e.gist_unplaced.symm
  rw [hgist es, h, hgist fs]

/-! ## Bare expressions -/

/-- The datum of a quotation of one, and any other expression as it is. -/
def bare : Expr α → Expr α
  | quote d => if d.isDatum then d else quote d
  | e => e

theorem bare_quote_of_isDatum {d : Expr α} (hd : d.isDatum = true) : (quote d).bare = d := if_pos hd

theorem bare_quote_of_not {d : Expr α} (hd : ¬d.isDatum = true) : (quote d).bare = quote d := if_neg hd

/-- The form of an expression with the gists of its parts. -/
def outline : Expr α → Expr α
  | quote d => quote d.gist
  | e => e.gist

/-- Only a quotation that is dropped hides the form of an expression from its gist. -/
theorem outline_bare (e : Expr α) : e.bare.outline = e.gist := by
  cases e with
  | quote d =>
    by_cases hd : d.isDatum = true
    · rw [bare_quote_of_isDatum hd, gist_quote_of_isDatum hd]
      cases d <;> first | rfl | cases hd
    · rw [bare_quote_of_not hd, gist_quote_of_not hd]
      rfl
  | _ => rfl

/-- Both expressions have the same form and names, and parts of the same gist. -/
inductive Matches : Expr α → Expr α → Prop where
  | symbol {x y : Name} (name : y.unplaced = x.unplaced) : Matches (symbol x) (symbol y)
  | literal {a : α} : Matches (literal a) (literal a)
  | empty : Matches empty empty
  | call {c d : Expr α} {es ds : List (Expr α)} (callee : d.gist = c.gist) (args : ds.map gist = es.map gist) :
    Matches (call c es) (call d ds)
  | lambda {ps qs : Params} {b c : List (Expr α)} (params : qs.unplaced = ps.unplaced)
    (body : c.map gist = b.map gist) : Matches (lambda ps b) (lambda qs c)
  | define {x y : Name} {e d : Expr α} (name : y.unplaced = x.unplaced) (value : d.gist = e.gist) :
    Matches (define x e) (define y d)
  | assign {x y : Name} {e d : Expr α} (name : y.unplaced = x.unplaced) (value : d.gist = e.gist) :
    Matches (assign x e) (assign y d)
  | cond {t t' c c' : Expr α} {o o' : Option (Expr α)} (test : t'.gist = t.gist) (chosen : c'.gist = c.gist)
    (otherwise : o'.map gist = o.map gist) : Matches (cond t c o) (cond t' c' o')
  | letIn {xs ys : List Name} {es ds b c : List (Expr α)} (names : ys.map Name.unplaced = xs.map Name.unplaced)
    (values : ds.map gist = es.map gist) (body : c.map gist = b.map gist) : Matches (letIn xs es b) (letIn ys ds c)
  | quote {d d' : Expr α} (datum : d'.gist = d.gist) : Matches (quote d) (quote d')
  | list {es ds : List (Expr α)} (items : ds.map gist = es.map gist) : Matches (list es) (list ds)

theorem matches_of_outline {a b : Expr α} (h : b.outline = a.outline) : Matches a b := by
  cases a with
  | symbol x =>
    cases b with
    | symbol y => exact .symbol (Expr.symbol.inj h)
    | _ => cases h
  | literal =>
    cases b with
    | literal =>
      cases h
      exact .literal
    | _ => cases h
  | empty =>
    cases b with
    | empty => exact .empty
    | _ => cases h
  | call =>
    cases b with
    | call =>
      obtain ⟨hcallee, hargs⟩ := Expr.call.inj h
      rw [gistAll_eq_map, gistAll_eq_map] at hargs
      exact .call hcallee hargs
    | _ => cases h
  | lambda =>
    cases b with
    | lambda =>
      obtain ⟨hparams, hbody⟩ := Expr.lambda.inj h
      rw [gistAll_eq_map, gistAll_eq_map] at hbody
      exact .lambda hparams hbody
    | _ => cases h
  | define =>
    cases b with
    | define =>
      obtain ⟨hname, hvalue⟩ := Expr.define.inj h
      exact .define hname hvalue
    | _ => cases h
  | assign =>
    cases b with
    | assign =>
      obtain ⟨hname, hvalue⟩ := Expr.assign.inj h
      exact .assign hname hvalue
    | _ => cases h
  | cond =>
    cases b with
    | cond =>
      obtain ⟨htest, hchosen, hotherwise⟩ := Expr.cond.inj h
      rw [gistOption_eq_map, gistOption_eq_map] at hotherwise
      exact .cond htest hchosen hotherwise
    | _ => cases h
  | letIn =>
    cases b with
    | letIn =>
      obtain ⟨hnames, hvalues, hbody⟩ := Expr.letIn.inj h
      rw [gistAll_eq_map, gistAll_eq_map] at hvalues hbody
      exact .letIn hnames hvalues hbody
    | _ => cases h
  | quote =>
    cases b with
    | quote => exact .quote (Expr.quote.inj h)
    | _ => cases h
  | list =>
    cases b with
    | list =>
      have hitems := Expr.list.inj h
      rw [gistAll_eq_map, gistAll_eq_map] at hitems
      exact .list hitems
    | _ => cases h

theorem Matches.outline_eq {a b : Expr α} (h : Matches a b) : b.outline = a.outline := by
  unfold outline
  cases h with
  | symbol hname => exact congrArg Expr.symbol hname
  | literal | empty => rfl
  | call hcallee hargs =>
    dsimp only
    rw [gist, gist, gistAll_eq_map, gistAll_eq_map, hcallee, hargs]
  | lambda hparams hbody =>
    dsimp only
    rw [gist, gist, gistAll_eq_map, gistAll_eq_map, hparams, hbody]
  | define hname hvalue | assign hname hvalue =>
    dsimp only
    rw [gist, gist, hname, hvalue]
  | cond htest hchosen hotherwise =>
    dsimp only
    rw [gist, gist, gistOption_eq_map, gistOption_eq_map, htest, hchosen, hotherwise]
  | letIn hnames hvalues hbody =>
    dsimp only
    rw [gist, gist, gistAll_eq_map, gistAll_eq_map, gistAll_eq_map, gistAll_eq_map, hnames, hvalues, hbody]
  | quote hdatum =>
    dsimp only
    rw [hdatum]
  | list hitems =>
    dsimp only
    rw [gist, gist, gistAll_eq_map, gistAll_eq_map, hitems]

/-- **Bare expressions of the same gist have the same form.** -/
theorem matches_bare {e e' : Expr α} (h : e'.gist = e.gist) : Matches e.bare e'.bare := by
  rw [← outline_bare e, ← outline_bare e'] at h
  exact matches_of_outline h

/-- Only a call has the gist of a call. -/
theorem not_call_of_gist {e e' : Expr α} (h : e'.gist = e.gist) (hcall : ∀ c es, e ≠ call c es) (c : Expr α)
    (es : List (Expr α)) : e' ≠ call c es := by
  rintro rfl
  have hmatches := matches_bare h
  cases e with
  | call c₀ es₀ => exact hcall c₀ es₀ rfl
  | quote d =>
    by_cases hd : d.isDatum = true
    · rw [bare_quote_of_isDatum hd] at hmatches
      cases hmatches
      cases hd
    · rw [bare_quote_of_not hd] at hmatches
      cases hmatches
  | _ => cases hmatches

/-- What has the gist of a datum is bare a datum. -/
theorem isDatum_bare_of_gist {d e : Expr α} (hd : d.isDatum = true) (h : e.gist = d.gist) :
    e.bare.isDatum = true := by
  have hmatches := matches_bare h
  cases d with
  | symbol | literal | list =>
    generalize e.bare = b at hmatches
    cases hmatches
    rfl
  | _ => cases hd

end Expr
end MiniScheme
