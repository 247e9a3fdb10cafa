import MiniScheme.Proofs.Expr.Gist
import MiniScheme.Proofs.Expr.Parsing

/-!
# Quotations in longhand

A quotation sign and the datum after it can be spelled out as a `quote` form around the datum. That cannot be done right
under another quotation, where brackets make a list of the form. Wherever else it is done, in any number of places, the
tokens still make up a program, and its expressions have the same gist.

* `Longhand part us vs` — `vs` is `us` with some of the quotations in it spelled out.
* `Longhand.spells`, `Longhand.program` — both spell the part, with trees of the same gist.
* `program_form` — the form is read where the sign is, and what it quotes is a datum.
-/

namespace MiniScheme
namespace Expr

variable {α : Type}

/-! ## Quotations -/

/-- What stands under a quotation is read as a symbol, a literal or a list. -/
theorem Spells.isDatum {n : Nat} {us : List (Token α)} {d : Expr α} (h : Spells n .datum us d) : d.isDatum = true := by
  induction n generalizing us with
  | zero =>
    cases h with
    | list => rfl
    | other _ value => cases value
  | succ n ih =>
    cases h with
    | list => rfl
    | other noBracket value =>
      cases value with
      | symbol | literal => rfl
      | tick _ datum => exact ih datum
      | brackets opens => exact absurd opens (noBracket _ rfl)

/-- **The form is read where the sign is.** What the sign quotes is a datum, and the form is its quotation. -/
theorem program_form {nesting : Nat} {q o w c : Token α} {us : List (Token α)} {d : Expr α} (isQuote : q.kind = .quote)
    (opens : o.kind = .leftBracket) (word : keyword? w = some .quote) (closes : c.kind = .rightBracket)
    (h : program nesting (q :: us) = .ok [d]) :
    d.isDatum = true ∧ program nesting (o :: w :: (us ++ [c])) = .ok [.quote d] := by
  obtain ⟨vs, ws, hsplit, hhead, htail⟩ := ((listOf_expressions nesting).cons_iff _ _ _).1 (program_eq_ok_iff.1 h)
  cases ((listOf_expressions nesting).nil_iff ws).1 htail
  rw [List.append_nil] at hsplit
  subst hsplit
  cases hhead with
  | symbol isSymbol => cases isQuote.symm.trans isSymbol
  | literal isLiteral =>
    rw [isQuote] at isLiteral
    cases isLiteral
  | brackets opens' => cases isQuote.symm.trans opens'
  | tick _ datum =>
    have hform := Spells.brackets opens (.special word (.quote datum)) closes
    refine ⟨datum.isDatum, program_eq_ok_iff.2 ?_⟩
    rw [← List.append_nil (o :: w :: _)]
    exact .consExpression hform .noExpressions

/-! ## Any number of quotations -/

/-- The second list of tokens is the first with quotations in some places spelled out, but none that is right under
another one. -/
inductive Longhand : Part → List (Token α) → List (Token α) → Prop where
  | same {n part us x} (h : Spells n part us x) : Longhand part us us
  | spellOut {q o w c us vs} (isQuote : q.kind = .quote) (opens : o.kind = .leftBracket)
    (word : keyword? w = some .quote) (closes : c.kind = .rightBracket) (datum : Longhand .datum us vs) :
    Longhand .expression (q :: us) (o :: w :: (vs ++ [c]))
  | tick {q us vs} (isQuote : q.kind = .quote) (datum : Longhand .datum us vs) :
    Longhand .expression (q :: us) (q :: vs)
  | brackets {o us vs c} (opens : o.kind = .leftBracket) (inside : Longhand .inside us vs)
    (closes : c.kind = .rightBracket) : Longhand .expression (o :: (us ++ [c])) (o :: (vs ++ [c]))
  | call {us vs us' vs'} (noKeyword : ∀ t ∈ us.head?, keyword? t = none) (callee : Longhand .expression us vs)
    (args : Longhand .expressions us' vs') : Longhand .inside (us ++ us') (vs ++ vs')
  | special {w k us vs} (word : keyword? w = some k) (form : Longhand (.form k) us vs) :
    Longhand .inside (w :: us) (w :: vs)
  | lambda {ts ps us vs} (params : SpellsParams ts ps) (body : Longhand .expressions us vs) :
    Longhand (.form .lambda) (ts ++ us) (ts ++ vs)
  | define {x us vs} (isSymbol : x.kind = .symbol) (value : Longhand .expression us vs) :
    Longhand (.form .define) (x :: us) (x :: vs)
  | assign {x us vs} (isSymbol : x.kind = .symbol) (value : Longhand .expression us vs) :
    Longhand (.form .assign) (x :: us) (x :: vs)
  | cond {us vs us' vs'} (test : Longhand .expression us vs) (chosen : Longhand .expression us' vs') :
    Longhand (.form .cond) (us ++ us') (vs ++ vs')
  | condElse {us vs us' vs' us'' vs''} (test : Longhand .expression us vs) (chosen : Longhand .expression us' vs')
    (other : Longhand .expression us'' vs'') : Longhand (.form .cond) (us ++ (us' ++ us'')) (vs ++ (vs' ++ vs''))
  | letIn {o us vs c us' vs'} (opens : o.kind = .leftBracket) (bindings : Longhand .bindings us vs)
    (closes : c.kind = .rightBracket) (body : Longhand .expressions us' vs') :
    Longhand (.form .letIn) (o :: (us ++ c :: us')) (o :: (vs ++ c :: vs'))
  | quote {us vs} (datum : Longhand .datum us vs) : Longhand (.form .quote) us vs
  | list {o us vs c} (opens : o.kind = .leftBracket) (items : Longhand .expressions us vs)
    (closes : c.kind = .rightBracket) : Longhand .datum (o :: (us ++ [c])) (o :: (vs ++ [c]))
  /-- The second condition keeps what stands right under a quotation from being spelled out. -/
  | other {us vs} (noBracket : ∀ t ∈ us.head?, t.kind ≠ .leftBracket)
    (stillNone : ∀ t ∈ vs.head?, t.kind ≠ .leftBracket) (value : Longhand .expression us vs) : Longhand .datum us vs
  | binding {o x us vs c} (opens : o.kind = .leftBracket) (isSymbol : x.kind = .symbol)
    (value : Longhand .expression us vs) (closes : c.kind = .rightBracket) :
    Longhand .binding (o :: x :: (us ++ [c])) (o :: x :: (vs ++ [c]))
  | consExpression {us vs us' vs'} (head : Longhand .expression us vs) (tail : Longhand .expressions us' vs') :
    Longhand .expressions (us ++ us') (vs ++ vs')
  | consBinding {us vs us' vs'} (head : Longhand .binding us vs) (tail : Longhand .bindings us' vs') :
    Longhand .bindings (us ++ us') (vs ++ vs')

/-- The gist of what the tokens of a part stand for. -/
def Part.gist : (part : Part) → part.Tree α → part.Tree α
  | expression | inside | form _ | datum => Expr.gist
  | expressions => List.map Expr.gist
  | binding => Prod.map Name.unplaced Expr.gist
  | bindings => List.map (Prod.map Name.unplaced Expr.gist)

/-- Both lists of tokens spell the part within the limit, with trees of the same gist. -/
def SpellLike (n : Nat) (part : Part) (us vs : List (Token α)) : Prop :=
  ∃ x y, Spells n part us x ∧ Spells n part vs y ∧ part.gist y = part.gist x

theorem SpellLike.mono {n m : Nat} {part : Part} {us vs : List (Token α)} (h : SpellLike n part us vs) (hle : n ≤ m) :
    SpellLike m part us vs := by
  obtain ⟨x, y, hx, hy, hgist⟩ := h
  exact ⟨x, y, hx.mono hle, hy.mono hle, hgist⟩

theorem names_of_bindings {bs bs' : List (Name × Expr α)}
    (h : bs'.map (Prod.map Name.unplaced gist) = bs.map (Prod.map Name.unplaced gist)) :
    (bs'.map (·.1)).map Name.unplaced = (bs.map (·.1)).map Name.unplaced := by
  have hnames := congrArg (List.map Prod.fst) h
  rw [List.map_map, List.map_map] at hnames ⊢
  exact hnames

theorem values_of_bindings {bs bs' : List (Name × Expr α)}
    (h : bs'.map (Prod.map Name.unplaced gist) = bs.map (Prod.map Name.unplaced gist)) :
    (bs'.map (·.2)).map gist = (bs.map (·.2)).map gist := by
  have hvalues := congrArg (List.map Prod.snd) h
  rw [List.map_map, List.map_map] at hvalues ⊢
  exact hvalues

/-- A bracket may take the place of what an expression starts with, but no keyword does. -/
theorem Longhand.noKeyword {us vs : List (Token α)} (h : Longhand .expression us vs)
    (hus : ∀ t ∈ us.head?, keyword? t = none) : ∀ t ∈ vs.head?, keyword? t = none := by
  cases h with
  | same => exact hus
  | spellOut _ opens =>
    rintro t ⟨⟩
    unfold keyword?
    rw [opens]
    rfl
  | tick | brackets => exact hus

/-- **What is spelled out in longhand is the same part of the grammar, with a tree of the same gist.** -/
theorem Longhand.spells {part : Part} {us vs : List (Token α)} (h : Longhand part us vs) :
    ∃ n, SpellLike n part us vs := by
  induction h with
  | same h => exact ⟨_, _, _, h, h, rfl⟩
  | spellOut isQuote opens word closes _ ih =>
    obtain ⟨n, d, e, hd, he, hgist⟩ := ih
    refine ⟨n + 1, d, .quote e, .tick isQuote hd, .brackets opens (.special word (.quote he)) closes, ?_⟩
    exact (gist_quote_of_isDatum he.isDatum).trans hgist
  | tick isQuote _ ih =>
    obtain ⟨n, d, e, hd, he, hgist⟩ := ih
    exact ⟨n + 1, d, e, .tick isQuote hd, .tick isQuote he, hgist⟩
  | brackets opens _ closes ih =>
    obtain ⟨n, d, e, hd, he, hgist⟩ := ih
    exact ⟨n + 1, d, e, .brackets opens hd closes, .brackets opens he closes, hgist⟩
  | call noKeyword hcallee _ ihCallee ihArgs =>
    obtain ⟨n, ihCallee⟩ := ihCallee
    obtain ⟨m, ihArgs⟩ := ihArgs
    obtain ⟨c, d, hc, hd, hcallee'⟩ := ihCallee.mono (Nat.le_max_left n m)
    obtain ⟨es, fs, hes, hfs, hargs⟩ := ihArgs.mono (Nat.le_max_right n m)
    refine ⟨_, _, _, .call noKeyword hc hes, .call (hcallee.noKeyword noKeyword) hd hfs, ?_⟩
    exact (Matches.call hcallee' hargs).outline_eq
  | special word _ ih =>
    obtain ⟨n, d, e, hd, he, hgist⟩ := ih
    exact ⟨n, d, e, .special word hd, .special word he, hgist⟩
  | lambda params _ ih =>
    obtain ⟨n, es, fs, hes, hfs, hbody⟩ := ih
    exact ⟨n, _, _, .lambda params hes, .lambda params hfs, (Matches.lambda rfl hbody).outline_eq⟩
  | define isSymbol _ ih =>
    obtain ⟨n, d, e, hd, he, hvalue⟩ := ih
    exact ⟨n, _, _, .define isSymbol hd, .define isSymbol he, (Matches.define rfl hvalue).outline_eq⟩
  | assign isSymbol _ ih =>
    obtain ⟨n, d, e, hd, he, hvalue⟩ := ih
    exact ⟨n, _, _, .assign isSymbol hd, .assign isSymbol he, (Matches.assign rfl hvalue).outline_eq⟩
  | cond _ _ ihTest ihChosen =>
    obtain ⟨n, ihTest⟩ := ihTest
    obtain ⟨m, ihChosen⟩ := ihChosen
    obtain ⟨t, t', ht, ht', htest⟩ := ihTest.mono (Nat.le_max_left n m)
    obtain ⟨c, c', hc, hc', hchosen⟩ := ihChosen.mono (Nat.le_max_right n m)
    exact ⟨_, _, _, .cond ht hc, .cond ht' hc', (Matches.cond htest hchosen rfl).outline_eq⟩
  | condElse _ _ _ ihTest ihChosen ihOther =>
    obtain ⟨n, ihTest⟩ := ihTest
    obtain ⟨m, ihChosen⟩ := ihChosen
    obtain ⟨k, ihOther⟩ := ihOther
    obtain ⟨t, t', ht, ht', htest⟩ := ihTest.mono (by omega : n ≤ max n (max m k))
    obtain ⟨c, c', hc, hc', hchosen⟩ := ihChosen.mono (by omega : m ≤ max n (max m k))
    obtain ⟨o, o', ho, ho', hother⟩ := ihOther.mono (by omega : k ≤ max n (max m k))
    refine ⟨_, _, _, .condElse ht hc ho, .condElse ht' hc' ho', ?_⟩
    have hotherwise : (some o').map gist = (some o).map gist := congrArg some hother
    exact (Matches.cond htest hchosen hotherwise).outline_eq
  | letIn opens _ closes _ ihBindings ihBody =>
    obtain ⟨n, ihBindings⟩ := ihBindings
    obtain ⟨m, ihBody⟩ := ihBody
    obtain ⟨bs, bs', hbs, hbs', hbindings⟩ := ihBindings.mono (Nat.le_max_left n m)
    obtain ⟨es, fs, hes, hfs, hbody⟩ := ihBody.mono (Nat.le_max_right n m)
    refine ⟨_, _, _, .letIn opens hbs closes hes, .letIn opens hbs' closes hfs, ?_⟩
    exact (Matches.letIn (names_of_bindings hbindings) (values_of_bindings hbindings) hbody).outline_eq
  | quote _ ih =>
    obtain ⟨n, d, e, hd, he, hgist⟩ := ih
    refine ⟨n, _, _, .quote hd, .quote he, ?_⟩
    exact (gist_quote_of_isDatum he.isDatum).trans (hgist.trans (gist_quote_of_isDatum hd.isDatum).symm)
  | list opens _ closes ih =>
    obtain ⟨n, es, fs, hes, hfs, hitems⟩ := ih
    exact ⟨n, _, _, .list opens hes closes, .list opens hfs closes, (Matches.list hitems).outline_eq⟩
  | other noBracket stillNone _ ih =>
    obtain ⟨n, d, e, hd, he, hgist⟩ := ih
    exact ⟨n, d, e, .other noBracket hd, .other stillNone he, hgist⟩
  | binding opens isSymbol _ closes ih =>
    obtain ⟨n, d, e, hd, he, hvalue⟩ := ih
    refine ⟨n, _, _, .binding opens isSymbol hd closes, .binding opens isSymbol he closes, ?_⟩
    exact Prod.ext rfl hvalue
  | consExpression _ _ ihHead ihTail =>
    obtain ⟨n, ihHead⟩ := ihHead
    obtain ⟨m, ihTail⟩ := ihTail
    obtain ⟨d, e, hd, he, hhead⟩ := ihHead.mono (Nat.le_max_left n m)
    obtain ⟨ds, es, hds, hes, htail⟩ := ihTail.mono (Nat.le_max_right n m)
    exact ⟨_, _, _, .consExpression hd hds, .consExpression he hes, List.cons_eq_cons.2 ⟨hhead, htail⟩⟩
  | consBinding _ _ ihHead ihTail =>
    obtain ⟨n, ihHead⟩ := ihHead
    obtain ⟨m, ihTail⟩ := ihTail
    obtain ⟨b, c, hb, hc, hhead⟩ := ihHead.mono (Nat.le_max_left n m)
    obtain ⟨bs, cs, hbs, hcs, htail⟩ := ihTail.mono (Nat.le_max_right n m)
    exact ⟨_, _, _, .consBinding hb hbs, .consBinding hc hcs, List.cons_eq_cons.2 ⟨hhead, htail⟩⟩

/-- A program is still one in longhand, wherever its tokens stand, and its expressions have the same gist. -/
theorem Longhand.program {us ts vs : List (Token α)} (h : Longhand .expressions us ts)
    (hplaces : vs.map Token.unplaced = ts.map Token.unplaced) :
    ∃ n es es', Expr.program n us = .ok es ∧ Expr.program n vs = .ok es' ∧ es'.map gist = es.map gist := by
  obtain ⟨n, es, fs, hes, hfs, hgist⟩ := h.spells
  obtain ⟨es', hes', hunplaced⟩ := program_of_unplaced hplaces (program_eq_ok_iff.2 hfs)
  exact ⟨n, es, es', program_eq_ok_iff.2 hes, hes', (map_gist_of_unplaced hunplaced).trans hgist⟩

end Expr
end MiniScheme
