import MiniScheme.Proofs.Eval.Gist
import MiniScheme.Proofs.Expr.Longhand
import MiniScheme.Proofs.Session.Layout

/-!
# Quotation sign and quote form

The quotation sign before a datum and the `quote` form around it come to the same, but for one level of nesting. So
quotations in a program can be spelled out, in any number of places that are not right under another quotation: it
comes to the same value but for the code in closures, the same output and the same errors. Only the nesting limit may
now stop it, or stop it no longer.

* `SpelledOut a b` — the text `b` is `a` with some quotations in longhand, in any layout.
* `Follows` — what a text comes to, another one comes to as well, unless the nesting limit stops that.
* `run_spelledOut` — sign and form come to the same, and so do a text and the same text in longhand.
-/

namespace MiniScheme

/-! ## Reports -/

theorem Value.shown_of_gist {v w : Value} (h : w.gist = v.gist) (nesting : Nat) :
    w.shown nesting = v.shown nesting := by
  have hprinted : w.printed? nesting = v.printed? nesting := correspondence_gist.printed?_eq h
  cases correspondence_gist.alike h with
  | plain => rfl
  | list | closure | nan =>
    unfold Value.shown
    dsimp only
    rw [hprinted]

/-- What two texts are reported with: the same value but for the code in closures, which appears alike, the same output
and the same errors. -/
structure Report.Like (report report' : Report) : Prop where
  value : report'.value.map Value.gist = report.value.map Value.gist
  answer : ∀ nesting, report'.answer nesting = report.answer nesting
  output : report'.output = report.output
  errors : report'.errors = report.errors

namespace Session

variable {a b source : String} {limits : Limits} {fuel n m : Nat} {s t s' t' : Store} {es es' : List Code}

/-- Outcomes of the same gist are reported alike. -/
theorem report_like {r r' : Except RuntimeError Value} (hr : SameGist Value.gist r r') (ht : t'.gist = s'.gist) :
    Report.Like (report (.ofExcept r s')).1 (report (.ofExcept r' t')).1 ∧
      (report (.ofExcept r' t')).2.gist = (report (.ofExcept r s')).2.gist := by
  have houtput := Store.output_of_gist ht
  have hdrained : (drain t').2.gist = (drain s').2.gist := by
    obtain ⟨hframes, hfresh, -⟩ := Store.mk.inj ht
    unfold drain Store.gist
    dsimp only
    rw [hframes, hfresh]
  cases hr with
  | ok hv => exact ⟨⟨congrArg some hv, fun n => congrArg some (Value.shown_of_gist hv n), houtput, rfl⟩, hdrained⟩
  | error => exact ⟨⟨rfl, fun _ => rfl, houtput, rfl⟩, hdrained⟩

/-! ## Reading -/

/-- The tokens of the second text are those of the first with some quotations spelled out, perhaps in other places. -/
structure SpelledOut (a b : String) : Prop where
  left : (Token.scan a).error = none
  right : (Token.scan b).error = none
  tokens : ∃ ts, Expr.Longhand .expressions (Expr.beforeEof (Token.scan a).tokens) ts ∧
    (Expr.beforeEof (Token.scan b).tokens).map Token.unplaced = ts.map Token.unplaced

theorem read_of_program (hscan : (Token.scan source).error = none)
    (h : Expr.program limits.nesting (Expr.beforeEof (Token.scan source).tokens) = .ok es) :
    read limits source = .ok es := by
  unfold read Expr.ofTokens
  dsimp only
  rw [hscan, h]

/-- What is read under one limit is read under every other one, or the limit stops it. -/
theorem read_or_tooDeep (h : read ⟨fuel, n⟩ source = .ok es) (limits : Limits) :
    read limits source = .ok es ∨ ∃ line, read limits source = .error ⟨line, .nestingTooDeep⟩ := by
  by_cases hdeep : ∃ line, read limits source = .error ⟨line, .nestingTooDeep⟩
  · exact .inr hdeep
  · rw [not_exists] at hdeep
    rcases Nat.le_total n limits.nesting with hle | hle
    · exact .inl ((@read_wider fuel _ _ _ hle fun line herror => nomatch h.symm.trans herror).trans h)
    · exact .inl ((@read_wider fuel _ _ _ hle hdeep).symm.trans h)

/-- Both texts are programs, and the expressions of the second have the same gist. -/
theorem SpelledOut.read (h : SpelledOut a b) :
    ∃ n es es', (∀ fuel, read ⟨fuel, n⟩ a = .ok es) ∧ (∀ fuel, read ⟨fuel, n⟩ b = .ok es') ∧
      es'.map Expr.gist = es.map Expr.gist := by
  obtain ⟨ts, hlonghand, hplaces⟩ := h.tokens
  obtain ⟨n, es, es', hes, hes', hgist⟩ := hlonghand.program hplaces
  exact ⟨n, es, es', fun _ => read_of_program h.left hes, fun _ => read_of_program h.right hes', hgist⟩

/-! ## Running -/

/-- Unless it is stopped, what a text comes to is a result. -/
theorem evalAll_of_value {es : List Code} (hread : read limits a = .ok es) (hfits : ¬Overflows limits a s)
    (hvalue : (run limits a s).1.value ≠ none) : ∃ r s', evalAll limits es s = .ofExcept r s' := by
  rw [run_eq_report hread] at hvalue
  cases houtcome : evalAll limits es s with
  | done v s' => exact ⟨.ok v, s', rfl⟩
  | stopped why s' =>
    cases why with
    | error e => exact ⟨.error e, s', rfl⟩
    | nestingTooDeep => exact absurd (.evaluation hread houtcome) hfits
    | outOfFuel =>
      rw [houtcome] at hvalue
      exact absurd rfl hvalue

/-- Expressions of the same gist come to results of the same gist, once both limits are wide enough. -/
theorem evalAll_gist {r : Except RuntimeError Value} (hgist : es'.map Expr.gist = es.map Expr.gist)
    (hst : t.gist = s.gist) (h : evalAll limits es s = .ofExcept r s') :
    ∃ k r' t', SameGist Value.gist r r' ∧ t'.gist = s'.gist ∧
      ∀ fuel n, k ≤ fuel → k ≤ n → evalAll ⟨fuel, n⟩ es' t = .ofExcept r' t' := by
  have hbody : BigStep (.body es Store.globalFrame .undefined) s r s' := inOrder_sound (eval_sound _ _) h
  obtain ⟨r', t', hbody', hr, ht⟩ := hbody.carries es' .undefined t hgist rfl hst
  obtain ⟨k, hk⟩ := hbody'.ends
  exact ⟨k, r', t', hr, ht, fun fuel n hfuel hn => hk fuel (n + 1) hfuel (Nat.le_succ_of_le hn)⟩

/-- Whatever the text `a` comes to from the store `s`, the text `b` comes to the like of it from `t`, given fuel enough,
unless the nesting limit stops it. A wide limit does not. -/
def Follows (a : String) (s : Store) (b : String) (t : Store) : Prop :=
  ∀ limits, ¬Overflows limits a s → (run limits a s).1.value ≠ none → ∃ k, ∀ fuel n, k ≤ fuel →
    (n < k ∧ Overflows ⟨fuel, n⟩ b t) ∨
      Report.Like (run limits a s).1 (run ⟨fuel, n⟩ b t).1 ∧ (run ⟨fuel, n⟩ b t).2.gist = (run limits a s).2.gist

/-- Texts that are read to expressions of the same gist follow each other. -/
theorem follows_of_gist (ha : ∀ fuel, read ⟨fuel, n⟩ a = .ok es) (hb : ∀ fuel, read ⟨fuel, n⟩ b = .ok es')
    (hgist : es'.map Expr.gist = es.map Expr.gist) (hst : t.gist = s.gist) : Follows a s b t := by
  intro limits hfits hvalue
  have hread : read limits a = .ok es := by
    rcases read_or_tooDeep (ha limits.fuel) limits with hok | ⟨line, hdeep⟩
    · exact hok
    · exact absurd (.reading hdeep) hfits
  obtain ⟨r, s', houtcome⟩ := evalAll_of_value hread hfits hvalue
  obtain ⟨k, r', t', hr, ht, hk⟩ := evalAll_gist hgist hst houtcome
  rw [run_eq_report hread, houtcome]
  -- Where neither the reading nor the evaluation of `b` meets the limit.
  have hwide (fuel m : Nat) (hfuel : max k n ≤ fuel) (hm : max k n ≤ m) :
      ¬Overflows ⟨fuel, m⟩ b t ∧ run ⟨fuel, m⟩ b t = report (.ofExcept r' t') := by
    have hread' : read ⟨fuel, m⟩ b = .ok es' := by
      rw [read_wider (by omega : n ≤ m) fun line herror => nomatch (hb fuel).symm.trans herror]
      exact hb fuel
    have houtcome' : evalAll ⟨fuel, m⟩ es' t = .ofExcept r' t' := hk fuel m (by omega) (by omega)
    refine ⟨not_overflows hread' houtcome' fun s => ?_, ?_⟩
    · cases r' <;> nofun
    · rw [run_eq_report hread', houtcome']
  refine ⟨max k n, fun fuel m hfuel => ?_⟩
  by_cases hoverflows : Overflows ⟨fuel, m⟩ b t
  · left
    refine ⟨?_, hoverflows⟩
    by_contra hm
    exact (hwide fuel m hfuel (Nat.le_of_not_lt hm)).1 hoverflows
  · right
    have hrun : run ⟨fuel, m⟩ b t = report (.ofExcept r' t') := by
      rw [← run_wider (Nat.le_max_left m (max k n)) hoverflows]
      exact (hwide fuel _ hfuel (Nat.le_max_right _ _)).2
    rw [hrun]
    exact report_like hr ht

/-- **Sign and form of a quotation mean the same.** Where the sign and the tokens after it are read as one expression,
so are the tokens inside a `quote` form. In every frame and store, and with two units of fuel or more, the two come to
the very same outcome, the form with one level of nesting more. In a program any quotations that are not right under
another one can be spelled out: run from stores of the same gist, the text and the one in longhand follow each other.
They come to values of the same gist, which appear alike, with the same output and errors, and leave stores of the same
gist. So if one of them never ends, the other does not end either, unless the nesting limit stops it. -/
theorem run_spelledOut :
    (∀ {nesting : Nat} {q o w c : Token Atom} {us : List (Token Atom)} {d : Code}, q.kind = .quote →
      o.kind = .leftBracket → Expr.keyword? w = some .quote → c.kind = .rightBracket →
      Expr.program nesting (q :: us) = .ok [d] →
      Expr.program nesting (o :: w :: (us ++ [c])) = .ok [.quote d] ∧
        ∀ fuel n f s, eval (fuel + 2) (n + 1) (.quote d) f s = eval (fuel + 2) n d f s) ∧
      ∀ {a b : String} {s t : Store}, SpelledOut a b → t.gist = s.gist → Follows a s b t ∧ Follows b t a s := by
  refine ⟨?_, ?_⟩
  · intro nesting q o w c us d isQuote opens word closes h
    obtain ⟨hdatum, hform⟩ := Expr.program_form isQuote opens word closes h
    exact ⟨hform, eval_quote_datum hdatum⟩
  · intro a b s t hspelledOut hst
    obtain ⟨n, es, es', ha, hb, hgist⟩ := hspelledOut.read
    exact ⟨follows_of_gist ha hb hgist hst, follows_of_gist hb ha hgist.symm hst.symm⟩

/-- A quotation in a quotation, and both of them spelled out. -/
def nestedQuotesExample : String × String := ("'(#t '#f)", "(quote (#t (quote #f)))")

theorem run_spelledOut_nestedQuotes :
    let (a, b) := nestedQuotesExample
    let d : Code := .list [.literal (.boolean true), .literal (.boolean false)]
    (Expr.program 3 (Expr.beforeEof (Token.scan a).tokens) = .ok [d] ∧
      ∀ fuel n f s, eval (fuel + 2) (n + 1) (.quote d) f s = eval (fuel + 2) n d f s) ∧
    SpelledOut a b ∧ ¬Overflows ⟨10, 10⟩ a .initial ∧ (run ⟨10, 10⟩ a .initial).1.value ≠ none ∧
      ∃ k, ∀ fuel n, k ≤ fuel → k ≤ n → (run ⟨fuel, n⟩ b .initial).1.answer 10 = some (.text "(#t #f)") := by
  have hno : Expr.Longhand (α := Atom) .datum [⟨.boolean (.boolean false), 6, "#f", 0⟩] _ :=
    .same (.other (n := 1) (by rintro t ⟨⟩; nofun) (.literal rfl))
  have hinner : Expr.Longhand (α := Atom) .expression (⟨.quote, 5, "'", 0⟩ :: _)
      (⟨.leftBracket, 11, "(", 0⟩ :: ⟨.symbol, 12, "quote", 0⟩ :: (_ ++ [⟨.rightBracket, 20, ")", 0⟩])) :=
    .spellOut rfl rfl rfl rfl hno
  have hyes : Expr.Longhand (α := Atom) .expression [⟨.boolean (.boolean true), 2, "#t", 0⟩] _ :=
    .same (.literal (n := 1) rfl)
  have hend : Expr.Longhand (α := Atom) .expressions [] [] := .same (.noExpressions (n := 1))
  have hdatum : Expr.Longhand (α := Atom) .datum (⟨.leftBracket, 1, "(", 0⟩ :: (_ ++ [⟨.rightBracket, 8, ")", 0⟩])) _ :=
    .list rfl (.consExpression hyes (.consExpression hinner hend)) rfl
  have houter : Expr.Longhand (α := Atom) .expression (⟨.quote, 0, "'", 0⟩ :: _)
      (⟨.leftBracket, 0, "(", 0⟩ :: ⟨.symbol, 1, "quote", 0⟩ :: (_ ++ [⟨.rightBracket, 22, ")", 0⟩])) :=
    .spellOut rfl rfl rfl rfl hdatum
  have hspelledOut : SpelledOut nestedQuotesExample.1 nestedQuotesExample.2 :=
    ⟨rfl, rfl, _, .consExpression houter hend, by decide +kernel⟩
  have hfits : ¬Overflows ⟨10, 10⟩ nestedQuotesExample.1 .initial := not_overflows rfl rfl nofun
  have hvalue : (run ⟨10, 10⟩ nestedQuotesExample.1 .initial).1.value ≠ none := nofun
  have hread : Expr.program (α := Atom) 3 [⟨.quote, 0, "'", 0⟩, ⟨.leftBracket, 1, "(", 0⟩,
      ⟨.boolean (.boolean true), 2, "#t", 0⟩, ⟨.quote, 5, "'", 0⟩, ⟨.boolean (.boolean false), 6, "#f", 0⟩,
      ⟨.rightBracket, 8, ")", 0⟩] = .ok [.list [.literal (.boolean true), .literal (.boolean false)]] := rfl
  have hform := (run_spelledOut.1 (o := ⟨.leftBracket, 0, "(", 0⟩) (w := ⟨.symbol, 1, "quote", 0⟩)
    (c := ⟨.rightBracket, 22, ")", 0⟩) rfl rfl rfl rfl hread).2
  obtain ⟨k, hk⟩ := (run_spelledOut.2 hspelledOut rfl).1 ⟨10, 10⟩ hfits hvalue
  refine ⟨⟨rfl, hform⟩, hspelledOut, hfits, hvalue, k, fun fuel n hfuel hn => ?_⟩
  rcases hk fuel n hfuel with ⟨hlt, _⟩ | ⟨hlike, _⟩
  · exact absurd hn (Nat.not_le_of_lt hlt)
  · exact (hlike.answer 10).trans rfl

end Session
end MiniScheme
