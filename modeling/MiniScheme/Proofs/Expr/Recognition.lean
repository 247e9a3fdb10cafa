import MiniScheme.Proofs.Expr.Reading

/-!
# The reader recognises the grammar

One lemma for each rule of the reader says that it takes exactly the tokens of its part off the front of the input.
The induction is on the nesting limit; the lemmas about what stands inside a bracket assume the claim for the
expressions in it.

* `ReadsExpressions item n bound` — on up to `bound` tokens, the rule reads just the expressions of depth `n`.
* `readsExpressions_expression` — the reader of expressions does so.
* `program_eq_ok_iff` — the reader of programs accepts exactly the programs of the grammar.
-/

namespace MiniScheme
namespace Expr

variable {α : Type}

/-! ## Inside brackets -/

/-- On up to `bound` tokens the rule reads just the expressions that are nested no deeper than `n`. -/
def ReadsExpressions (item : Rule α (Expr α)) (n bound : Nat) : Prop :=
  ∀ ts e r, ts.length ≤ bound → (Reads (item ts) e r ↔ ∃ us, ts = us ++ r ∧ Spells n .expression us e)

section Bracketed

variable {item : Rule α (Expr α)} {n bound : Nat} (hitem : ReadsExpressions item n bound)
include hitem

theorem reads_items {k : Nat} {last : Token α} {ts r : List (Token α)} {es : List (Expr α)} (hb : ts.length ≤ bound)
    (hk : ts.length ≤ k) : Reads (items item k last ts) es r ↔
      ∃ us c, ts = us ++ c :: r ∧ c.kind = .rightBracket ∧ Spells n .expressions us es := by
  refine (reads_untilClosed (listOf_expressions n) (fun _ => hitem) hb hk).trans ⟨?_, ?_⟩
  · rintro ⟨us, c, es, hts, hc, hus, rfl⟩
    exact ⟨us, c, hts, hc, hus⟩
  · rintro ⟨us, c, hts, hc, hus⟩
    exact ⟨us, c, es, hts, hc, hus, rfl⟩

theorem reads_binding {last : Token α} {ts r : List (Token α)} {b : Name × Expr α} (hb : ts.length ≤ bound) :
    Reads (binding item last ts) b r ↔ ∃ us, ts = us ++ r ∧ Spells n .binding us b := by
  constructor
  · intro h
    unfold binding at h
    obtain ⟨_, opening, _, hopen, h⟩ := h.of_bind
    obtain ⟨_, name, _, hname, h⟩ := h.of_bind
    obtain ⟨e, value, _, hvalue, h⟩ := h.of_bind
    obtain ⟨_, closing, _, hclose, h⟩ := h.of_bind
    obtain ⟨rfl, rfl⟩ := h.of_ok
    obtain ⟨o, rfl, ho⟩ := reads_expect.1 hopen
    obtain ⟨x, rfl, hx, rfl⟩ := reads_expectName.1 hname
    rw [List.length_cons, List.length_cons] at hb
    dsimp only at hvalue
    obtain ⟨us, rfl, hus⟩ := (hitem _ _ _ (by omega)).1 hvalue
    obtain ⟨c, rfl, hc⟩ := reads_expect.1 hclose
    exact ⟨o :: x :: (us ++ [c]), by simp, .binding (Token.Kind.shape_eq_leftBracket.1 ho) hx hus
      (Token.Kind.shape_eq_rightBracket.1 hc)⟩
  · rintro ⟨us, rfl, h⟩
    cases h with
    | @binding _ o x us e c ho hx hus hc =>
      simp only [List.cons_append, List.append_assoc, List.nil_append, List.length_cons] at hb ⊢
      unfold binding
      refine Reads.bind (reads_expect.2 ⟨o, rfl, by rw [ho]; rfl⟩) fun opening => ?_
      refine Reads.bind (reads_expectName.2 ⟨x, rfl, hx, rfl⟩) fun name => ?_
      refine Reads.bind ((hitem _ e (c :: r) (by dsimp only; omega)).2 ⟨us, rfl, hus⟩) fun value => ?_
      refine Reads.bind (reads_expect.2 ⟨c, rfl, by rw [hc]; rfl⟩) fun closing => ?_
      exact ⟨closing, rfl⟩

theorem reads_bindings {k : Nat} {last : Token α} {ts r : List (Token α)} {bs : List (Name × Expr α)}
    (hb : ts.length ≤ bound) (hk : ts.length ≤ k) : Reads (bindings item k last ts) bs r ↔
      ∃ us c, ts = us ++ c :: r ∧ c.kind = .rightBracket ∧ Spells n .bindings us bs := by
  have hpart : ∀ (last : Token α) ts b r, ts.length ≤ bound → (Reads (binding item last ts) b r ↔
      ∃ us, ts = us ++ r ∧ Spells n .binding us b) := fun _ _ _ _ hts => reads_binding hitem hts
  refine (reads_untilClosed (listOf_bindings n) hpart hb hk).trans ⟨?_, ?_⟩
  · rintro ⟨us, c, bs, hts, hc, hus, rfl⟩
    exact ⟨us, c, hts, hc, hus⟩
  · rintro ⟨us, c, hts, hc, hus⟩
    exact ⟨us, c, bs, hts, hc, hus, rfl⟩

theorem reads_datum {k : Nat} {ts r : List (Token α)} {d : Expr α} (hb : ts.length ≤ bound) (hk : ts.length ≤ k) :
    Reads (datum item k ts) d r ↔ ∃ us, ts = us ++ r ∧ Spells n .datum us d := by
  cases ts with
  | nil =>
    refine (hitem [] d r hb).trans ⟨?_, ?_⟩
    · rintro ⟨us, hts, hus⟩
      obtain ⟨u, us, rfl, -⟩ := hus.expression_head
      cases hts
    · rintro ⟨us, hts, hus⟩
      cases hus with
      | list opens => cases hts
      | other noBracket hus => exact ⟨us, hts, hus⟩
  | cons t ts =>
    rw [List.length_cons] at hb hk
    unfold datum
    dsimp only
    by_cases hopen : t.kind.shape = .leftBracket
    · rw [if_pos hopen]
      constructor
      · intro h
        obtain ⟨es, last, _, hitems, h⟩ := h.of_bind
        obtain ⟨rfl, rfl⟩ := h.of_ok
        obtain ⟨us, c, rfl, hc, hus⟩ := (reads_items hitem (by omega) (by omega)).1 hitems
        exact ⟨t :: (us ++ [c]), by simp, .list (Token.Kind.shape_eq_leftBracket.1 hopen) hus hc⟩
      · rintro ⟨us, hts, hus⟩
        cases hus with
        | @list _ o us es c ho hus hc =>
          simp only [List.cons_append, List.append_assoc, List.nil_append, List.cons.injEq] at hts
          obtain ⟨rfl, rfl⟩ := hts
          refine Reads.bind ((reads_items hitem (by omega) (by omega)).2 ⟨us, c, rfl, hc, hus⟩) ?_
          exact fun closing => ⟨closing, rfl⟩
        | other noBracket hus =>
          obtain ⟨u, us, rfl, -⟩ := hus.expression_head
          cases hts
          exact absurd (Token.Kind.shape_eq_leftBracket.1 hopen) (noBracket t rfl)
    · rw [if_neg hopen]
      refine (hitem _ d r (by rwa [List.length_cons])).trans ⟨?_, ?_⟩
      · rintro ⟨us, hts, hus⟩
        refine ⟨us, hts, .other (fun u hu hkind => hopen ?_) hus⟩
        obtain ⟨v, us, rfl, -⟩ := hus.expression_head
        cases hu
        cases hts
        rw [hkind]
        rfl
      · rintro ⟨us, hts, hus⟩
        cases hus with
        | list opens =>
          cases hts
          rw [opens] at hopen
          exact absurd rfl hopen
        | other noBracket hus => exact ⟨us, hts, hus⟩

theorem reads_nameAndValue {word : Token α} {ts r : List (Token α)} {b : Name × Expr α} (hb : ts.length ≤ bound) :
    Reads (nameAndValue item word ts) b r ↔ ∃ x us c, ts = x :: (us ++ c :: r) ∧ c.kind = .rightBracket ∧
      x.kind = .symbol ∧ b.1 = x.toName ∧ Spells n .expression us b.2 := by
  constructor
  · intro h
    unfold nameAndValue at h
    obtain ⟨_, name, _, hname, h⟩ := h.of_bind
    obtain ⟨e, value, _, hvalue, h⟩ := h.of_bind
    obtain ⟨_, closing, _, hclose, h⟩ := h.of_bind
    obtain ⟨rfl, rfl⟩ := h.of_ok
    obtain ⟨x, rfl, hx, rfl⟩ := reads_expectName.1 hname
    rw [List.length_cons] at hb
    obtain ⟨us, hts, hus⟩ := (hitem _ _ _ (Nat.le_of_succ_le hb)).1 hvalue
    obtain ⟨c, rfl, hc⟩ := reads_expect.1 hclose
    exact ⟨x, us, c, congrArg (x :: ·) hts, Token.Kind.shape_eq_rightBracket.1 hc, hx, rfl, hus⟩
  · rintro ⟨x, us, c, rfl, hc, hx, hb₁, hus⟩
    obtain ⟨name, e⟩ := b
    cases hb₁
    rw [List.length_cons] at hb
    unfold nameAndValue
    refine Reads.bind (reads_expectName.2 ⟨x, rfl, hx, rfl⟩) fun name => ?_
    refine Reads.bind ((hitem _ e (c :: r) (Nat.le_of_succ_le hb)).2 ⟨us, rfl, hus⟩) fun value => ?_
    refine Reads.bind (reads_expect.2 ⟨c, rfl, by rw [hc]; rfl⟩) fun closing => ?_
    exact ⟨closing, rfl⟩

/-- The last branch of an `if` is there exactly if the next token is not the closing bracket. -/
theorem reads_otherwise {last : Token α} {ts : List (Token α)} {c : Token α} {r : List (Token α)}
    {o : Option (Expr α)} (hb : ts.length ≤ bound) (hc : c.kind = .rightBracket) :
    Reads (otherwise item last ts) o (c :: r) ↔
      (o = none ∧ ts = c :: r) ∨ ∃ e us, o = some e ∧ ts = us ++ c :: r ∧ Spells n .expression us e := by
  constructor
  · intro h
    unfold otherwise at h
    split at h
    · obtain ⟨rfl, rfl⟩ := h.of_ok
      exact .inl ⟨rfl, rfl⟩
    · obtain ⟨e, branch, _, hbranch, h⟩ := h.of_bind
      obtain ⟨rfl, rfl⟩ := h.of_ok
      obtain ⟨us, hts, hus⟩ := (hitem _ _ _ hb).1 hbranch
      exact .inr ⟨e, us, rfl, hts, hus⟩
  · rintro (⟨rfl, rfl⟩ | ⟨e, us, rfl, rfl, hus⟩)
    · have hread : Reads (expect .rightBracket last (c :: r)) () r :=
        reads_expect.2 ⟨c, rfl, Token.Kind.shape_eq_rightBracket.2 hc⟩
      obtain ⟨last', hclose⟩ := hread
      unfold otherwise
      rw [hclose]
      exact ⟨last, rfl⟩
    · have hno : ∀ p, expect .rightBracket last (us ++ c :: r) ≠ .ok p := by
        intro p hp
        obtain ⟨t, ht, hshape⟩ := reads_expect.1 ⟨p.last, hp⟩
        obtain ⟨u, us, rfl, hu⟩ := hus.expression_head
        obtain ⟨rfl, _⟩ := List.cons.inj ht
        exact hu (Token.Kind.shape_eq_rightBracket.1 hshape)
      unfold otherwise
      split
      · rename_i p hp
        exact absurd hp (hno p)
      · refine Reads.bind ((hitem _ e (c :: r) hb).2 ⟨us, rfl, hus⟩) fun branch => ?_
        exact ⟨branch, rfl⟩

theorem reads_callRest {k : Nat} {ts r : List (Token α)} {e : Expr α} (hb : ts.length ≤ bound) (hk : ts.length ≤ k) :
    Reads (callRest item k ts) e r ↔ ∃ us vs c f es, ts = us ++ (vs ++ c :: r) ∧ c.kind = .rightBracket ∧
      Spells n .expression us f ∧ Spells n .expressions vs es ∧ e = .call f es := by
  constructor
  · intro h
    unfold callRest at h
    obtain ⟨f, callee, _, hcallee, h⟩ := h.of_bind
    obtain ⟨es, args, _, hargs, h⟩ := h.of_bind
    obtain ⟨rfl, rfl⟩ := h.of_ok
    obtain ⟨us, rfl, hus⟩ := (hitem _ _ _ hb).1 hcallee
    rw [List.length_append] at hb hk
    obtain ⟨vs, c, hvs, hc, hes⟩ := (reads_items hitem (by dsimp only; omega) (by dsimp only; omega)).1 hargs
    dsimp only at hvs
    exact ⟨us, vs, c, f, es, by rw [hvs], hc, hus, hes, rfl⟩
  · rintro ⟨us, vs, c, f, es, rfl, hc, hus, hes, rfl⟩
    unfold callRest
    refine Reads.bind ((hitem _ f (vs ++ c :: r) hb).2 ⟨us, rfl, hus⟩) fun callee => ?_
    rw [List.length_append] at hb hk
    refine Reads.bind ((reads_items hitem (by dsimp only; omega) (by dsimp only; omega)).2 ⟨vs, c, rfl, hc, hes⟩) ?_
    exact fun closing => ⟨closing, rfl⟩

theorem reads_lambda {k : Nat} {word : Token α} {ts r : List (Token α)} {e : Expr α}
    (hb : ts.length ≤ bound) (hk : ts.length ≤ k) : Reads (form item k .lambda word ts) e r ↔
      ∃ us c, ts = us ++ c :: r ∧ c.kind = .rightBracket ∧ Spells n (.form .lambda) us e := by
  unfold form
  constructor
  · intro h
    obtain ⟨ps, head, _, hhead, h⟩ := h.of_bind
    obtain ⟨es, body, _, hbody, h⟩ := h.of_bind
    obtain ⟨rfl, rfl⟩ := h.of_ok
    obtain ⟨us, rfl, hus⟩ := (reads_params hk).1 hhead
    rw [List.length_append] at hb hk
    obtain ⟨vs, c, hvs, hc, hes⟩ := (reads_items hitem (by dsimp only; omega) (by dsimp only; omega)).1 hbody
    dsimp only at hvs
    exact ⟨us ++ vs, c, by rw [hvs, List.append_assoc], hc, .lambda hus hes⟩
  · rintro ⟨us, c, rfl, hc, hus⟩
    cases hus with
    | @lambda _ us ps vs es hus hes =>
      rw [List.append_assoc] at hb hk ⊢
      refine Reads.bind ((reads_params hk).2 ⟨us, rfl, hus⟩) fun head => ?_
      rw [List.length_append] at hb hk
      refine Reads.bind ((reads_items hitem (by dsimp only; omega) (by dsimp only; omega)).2 ⟨vs, c, rfl, hc, hes⟩) ?_
      exact fun body => ⟨body, rfl⟩

theorem reads_define {k : Nat} {word : Token α} {ts r : List (Token α)} {e : Expr α}
    (hb : ts.length ≤ bound) : Reads (form item k .define word ts) e r ↔
      ∃ us c, ts = us ++ c :: r ∧ c.kind = .rightBracket ∧ Spells n (.form .define) us e := by
  unfold form
  constructor
  · intro h
    obtain ⟨⟨name, e⟩, rest, _, hrest, h⟩ := h.of_bind
    obtain ⟨rfl, rfl⟩ := h.of_ok
    obtain ⟨x, us, c, rfl, hc, hx, rfl, hus⟩ := (reads_nameAndValue hitem hb).1 hrest
    exact ⟨x :: us, c, rfl, hc, .define hx hus⟩
  · rintro ⟨us, c, rfl, hc, hus⟩
    cases hus with
    | @define _ x us e hx hus =>
      refine Reads.bind ((reads_nameAndValue hitem (b := (x.toName, e)) hb).2 ⟨x, us, c, rfl, hc, hx, rfl, hus⟩) ?_
      exact fun rest => ⟨rest, rfl⟩

theorem reads_assign {k : Nat} {word : Token α} {ts r : List (Token α)} {e : Expr α}
    (hb : ts.length ≤ bound) : Reads (form item k .assign word ts) e r ↔
      ∃ us c, ts = us ++ c :: r ∧ c.kind = .rightBracket ∧ Spells n (.form .assign) us e := by
  unfold form
  constructor
  · intro h
    obtain ⟨⟨name, e⟩, rest, _, hrest, h⟩ := h.of_bind
    obtain ⟨rfl, rfl⟩ := h.of_ok
    obtain ⟨x, us, c, rfl, hc, hx, rfl, hus⟩ := (reads_nameAndValue hitem hb).1 hrest
    exact ⟨x :: us, c, rfl, hc, .assign hx hus⟩
  · rintro ⟨us, c, rfl, hc, hus⟩
    cases hus with
    | @assign _ x us e hx hus =>
      refine Reads.bind ((reads_nameAndValue hitem (b := (x.toName, e)) hb).2 ⟨x, us, c, rfl, hc, hx, rfl, hus⟩) ?_
      exact fun rest => ⟨rest, rfl⟩

theorem reads_cond {k : Nat} {word : Token α} {ts r : List (Token α)} {e : Expr α}
    (hb : ts.length ≤ bound) : Reads (form item k .cond word ts) e r ↔
      ∃ us c, ts = us ++ c :: r ∧ c.kind = .rightBracket ∧ Spells n (.form .cond) us e := by
  unfold form
  constructor
  · intro h
    obtain ⟨a, test, _, htest, h⟩ := h.of_bind
    obtain ⟨b, chosen, _, hchosen, h⟩ := h.of_bind
    obtain ⟨o, other, _, hother, h⟩ := h.of_bind
    obtain ⟨_, closing, _, hclose, h⟩ := h.of_bind
    obtain ⟨rfl, rfl⟩ := h.of_ok
    obtain ⟨us, rfl, hus⟩ := (hitem _ _ _ hb).1 htest
    rw [List.length_append] at hb
    obtain ⟨vs, hvs, hvs'⟩ := (hitem _ _ _ (by dsimp only; omega)).1 hchosen
    dsimp only at hvs
    subst hvs
    rw [List.length_append] at hb
    obtain ⟨c, rfl, hshape⟩ := reads_expect.1 hclose
    have hc := Token.Kind.shape_eq_rightBracket.1 hshape
    rcases (reads_otherwise hitem (by dsimp only; omega) hc).1 hother with ⟨rfl, hts⟩ | ⟨d, ws, rfl, hts, hws⟩
    · dsimp only at hts
      exact ⟨us ++ vs, c, by rw [hts, List.append_assoc], hc, .cond hus hvs'⟩
    · dsimp only at hts
      exact ⟨us ++ (vs ++ ws), c, by rw [hts]; simp, hc, .condElse hus hvs' hws⟩
  · rintro ⟨us, c, rfl, hc, hus⟩
    cases hus with
    | @cond _ us a vs b hus hvs =>
      rw [List.append_assoc] at hb ⊢
      refine Reads.bind ((hitem _ a (vs ++ c :: r) hb).2 ⟨us, rfl, hus⟩) fun test => ?_
      rw [List.length_append, List.length_append] at hb
      refine Reads.bind ((hitem _ b (c :: r) (by simp only [List.length_append]; omega)).2 ⟨vs, rfl, hvs⟩)
        fun chosen => ?_
      refine Reads.bind ((reads_otherwise hitem (by dsimp only; omega) hc).2 (.inl ⟨rfl, rfl⟩)) fun other => ?_
      refine Reads.bind (reads_expect.2 ⟨c, rfl, Token.Kind.shape_eq_rightBracket.2 hc⟩) fun closing => ?_
      exact ⟨closing, rfl⟩
    | @condElse _ us a vs b ws d hus hvs hws =>
      rw [List.append_assoc, List.append_assoc] at hb ⊢
      refine Reads.bind ((hitem _ a (vs ++ (ws ++ c :: r)) hb).2 ⟨us, rfl, hus⟩) fun test => ?_
      rw [List.length_append, List.length_append, List.length_append] at hb
      refine Reads.bind ((hitem _ b (ws ++ c :: r) (by simp only [List.length_append]; omega)).2 ⟨vs, rfl, hvs⟩)
        fun chosen => ?_
      refine Reads.bind
        ((reads_otherwise hitem (by simp only [List.length_append]; omega) hc).2 (.inr ⟨d, ws, rfl, rfl, hws⟩))
        fun other => ?_
      refine Reads.bind (reads_expect.2 ⟨c, rfl, Token.Kind.shape_eq_rightBracket.2 hc⟩) fun closing => ?_
      exact ⟨closing, rfl⟩

theorem reads_letIn {k : Nat} {word : Token α} {ts r : List (Token α)} {e : Expr α}
    (hb : ts.length ≤ bound) (hk : ts.length ≤ k) : Reads (form item k .letIn word ts) e r ↔
      ∃ us c, ts = us ++ c :: r ∧ c.kind = .rightBracket ∧ Spells n (.form .letIn) us e := by
  unfold form
  constructor
  · intro h
    obtain ⟨_, opening, _, hopen, h⟩ := h.of_bind
    obtain ⟨bs, pairs, _, hpairs, h⟩ := h.of_bind
    obtain ⟨es, body, _, hbody, h⟩ := h.of_bind
    obtain ⟨rfl, rfl⟩ := h.of_ok
    obtain ⟨o, rfl, ho⟩ := reads_expect.1 hopen
    rw [List.length_cons] at hb hk
    obtain ⟨us, c, hts, hc, hus⟩ := (reads_bindings hitem (by dsimp only; omega) (by dsimp only; omega)).1 hpairs
    dsimp only at hts
    subst hts
    rw [List.length_append, List.length_cons] at hb hk
    obtain ⟨vs, c', hvs, hc', hes⟩ := (reads_items hitem (by dsimp only; omega) (by dsimp only; omega)).1 hbody
    dsimp only at hvs
    refine ⟨o :: (us ++ c :: vs), c', by rw [hvs]; simp, hc', ?_⟩
    exact .letIn (Token.Kind.shape_eq_leftBracket.1 ho) hus hc hes
  · rintro ⟨us, c', rfl, hc', hus⟩
    cases hus with
    | @letIn _ o us bs c vs es ho hus hc hes =>
      simp only [List.cons_append, List.append_assoc, List.length_cons, List.length_append] at hb hk ⊢
      refine Reads.bind (reads_expect.2 ⟨o, rfl, by rw [ho]; rfl⟩) fun opening => ?_
      refine Reads.bind ((reads_bindings hitem ?_ ?_).2 ⟨us, c, rfl, hc, hus⟩)
        fun pairs => ?_
      · simp only [List.length_append, List.length_cons]
        omega
      · simp only [List.length_append, List.length_cons]
        omega
      refine Reads.bind ((reads_items hitem ?_ ?_).2 ⟨vs, c', rfl, hc', hes⟩) fun body => ?_
      · simp only [List.length_append, List.length_cons]
        omega
      · simp only [List.length_append, List.length_cons]
        omega
      exact ⟨body, rfl⟩

theorem reads_quote {k : Nat} {word : Token α} {ts r : List (Token α)} {e : Expr α}
    (hb : ts.length ≤ bound) (hk : ts.length ≤ k) : Reads (form item k .quote word ts) e r ↔
      ∃ us c, ts = us ++ c :: r ∧ c.kind = .rightBracket ∧ Spells n (.form .quote) us e := by
  unfold form
  constructor
  · intro h
    obtain ⟨d, quoted, _, hquoted, h⟩ := h.of_bind
    obtain ⟨_, closing, _, hclose, h⟩ := h.of_bind
    obtain ⟨rfl, rfl⟩ := h.of_ok
    obtain ⟨us, rfl, hus⟩ := (reads_datum hitem hb hk).1 hquoted
    obtain ⟨c, hts, hc⟩ := reads_expect.1 hclose
    dsimp only at hts
    exact ⟨us, c, by rw [hts], Token.Kind.shape_eq_rightBracket.1 hc, .quote hus⟩
  · rintro ⟨us, c, rfl, hc, hus⟩
    cases hus with
    | @quote _ us d hus =>
      refine Reads.bind ((reads_datum hitem hb hk).2 ⟨us, rfl, hus⟩) fun quoted => ?_
      refine Reads.bind (reads_expect.2 ⟨c, rfl, Token.Kind.shape_eq_rightBracket.2 hc⟩) fun closing => ?_
      exact ⟨closing, rfl⟩

theorem reads_form {k : Nat} (keyword : Keyword) {word : Token α} {ts r : List (Token α)} {e : Expr α}
    (hb : ts.length ≤ bound) (hk : ts.length ≤ k) : Reads (form item k keyword word ts) e r ↔
      ∃ us c, ts = us ++ c :: r ∧ c.kind = .rightBracket ∧ Spells n (.form keyword) us e := by
  cases keyword with
  | lambda => exact reads_lambda hitem hb hk
  | define => exact reads_define hitem hb
  | assign => exact reads_assign hitem hb
  | cond => exact reads_cond hitem hb
  | letIn => exact reads_letIn hitem hb hk
  | quote => exact reads_quote hitem hb hk

/-- The rest of an expression after its opening bracket. -/
theorem reads_bracketed {k : Nat} {ts r : List (Token α)} {e : Expr α} (hb : ts.length ≤ bound)
    (hk : ts.length ≤ k) : Reads (bracketed item k ts) e r ↔
      ∃ us c, ts = us ++ c :: r ∧ c.kind = .rightBracket ∧ Spells n .inside us e := by
  -- Without a keyword in front and without a closing bracket, a call is all that is left.
  have hcall : (∀ t ∈ ts.head?, keyword? t = none ∧ t.kind ≠ .rightBracket) →
      (Reads (callRest item k ts) e r ↔
        ∃ us c, ts = us ++ c :: r ∧ c.kind = .rightBracket ∧ Spells n .inside us e) := by
    intro hhead
    refine (reads_callRest hitem hb hk).trans ⟨?_, ?_⟩
    · rintro ⟨us, vs, c, f, es, rfl, hc, hus, hes, rfl⟩
      refine ⟨us ++ vs, c, by rw [List.append_assoc], hc, .call (fun t ht => (hhead t ?_).1) hus hes⟩
      obtain ⟨u, us, rfl, -⟩ := hus.expression_head
      exact ht
    · rintro ⟨us, c, rfl, hc, hus⟩
      cases hus with
      | empty => exact absurd hc (hhead c rfl).2
      | @call _ us f vs es hno hus hes => exact ⟨us, vs, c, f, es, by rw [List.append_assoc], hc, hus, hes, rfl⟩
      | @special _ w _ us _ hw => exact absurd ((hhead w rfl).1.symm.trans hw) nofun
  cases ts with
  | nil => exact hcall nofun
  | cons t ts =>
    unfold bracketed
    dsimp only
    by_cases hclose : t.kind.shape = .rightBracket
    · rw [if_pos hclose]
      have hkind := Token.Kind.shape_eq_rightBracket.1 hclose
      constructor
      · intro h
        obtain ⟨rfl, rfl⟩ := h.of_ok
        exact ⟨[], t, rfl, hkind, .empty⟩
      · rintro ⟨us, c, hts, hc, hus⟩
        cases hus with
        | empty =>
          cases hts
          exact ⟨t, rfl⟩
        | call hno hus =>
          obtain ⟨u, us, rfl, hu⟩ := hus.expression_head
          cases hts
          exact absurd hkind hu
        | special hw =>
          cases hts
          unfold keyword? at hw
          rw [if_neg (by rw [hclose]; nofun)] at hw
          cases hw
    · rw [if_neg hclose]
      have hkind : t.kind ≠ .rightBracket := fun h => hclose (Token.Kind.shape_eq_rightBracket.2 h)
      split
      · rename_i keyword hw
        rw [List.length_cons] at hb hk
        refine (reads_form hitem keyword (Nat.le_of_succ_le hb) (Nat.le_of_succ_le hk)).trans ⟨?_, ?_⟩
        · rintro ⟨us, c, rfl, hc, hus⟩
          exact ⟨t :: us, c, rfl, hc, .special hw hus⟩
        · rintro ⟨us, c, hts, hc, hus⟩
          cases hus with
          | empty =>
            cases hts
            exact absurd hc hkind
          | call hno hus =>
            obtain ⟨u, us, rfl, hu⟩ := hus.expression_head
            cases hts
            exact absurd ((hno t rfl).symm.trans hw) nofun
          | @special _ w _ us _ hw' hus =>
            cases hts
            cases hw'.symm.trans hw
            exact ⟨us, c, rfl, hc, hus⟩
      · rename_i hw
        refine hcall fun u hu => ?_
        cases hu
        exact ⟨hw, hkind⟩

end Bracketed

/-! ## Expressions and programs -/

/-- **The reader takes exactly one expression off the front.** It succeeds just on the tokens that start with an
expression of the grammar, and leaves the tokens after that. -/
theorem readsExpressions_expression (n bound : Nat) :
    ReadsExpressions (expression (α := α) bound n) n bound := by
  induction n with
  | zero =>
    intro ts e r _
    constructor
    · intro h
      exact absurd h Reads.not_error
    · rintro ⟨us, _, hus⟩
      cases hus
  | succ n ih =>
    intro ts e r hb
    unfold expression
    cases ts with
    | nil =>
      constructor
      · intro h
        exact absurd h Reads.not_error
      · rintro ⟨us, hts, hus⟩
        obtain ⟨u, us, rfl, -⟩ := hus.expression_head
        cases hts
    | cons t ts =>
      rw [List.length_cons] at hb
      have hle := Nat.le_of_succ_le hb
      dsimp only
      constructor
      · intro h
        split at h
        · rename_i hkind
          obtain ⟨us, c, rfl, hc, hus⟩ := (reads_bracketed ih hle hle).1 h
          exact ⟨t :: (us ++ [c]), by simp, .brackets hkind hus hc⟩
        · rename_i hkind
          obtain ⟨rfl, rfl⟩ := h.of_ok
          exact ⟨[t], rfl, .symbol hkind⟩
        · rename_i hkind
          obtain ⟨rfl, rfl⟩ := h.of_ok
          exact ⟨[t], rfl, .literal (by rw [hkind]; rfl)⟩
        · rename_i hkind
          obtain ⟨rfl, rfl⟩ := h.of_ok
          exact ⟨[t], rfl, .literal (by rw [hkind]; rfl)⟩
        · rename_i hkind
          obtain ⟨rfl, rfl⟩ := h.of_ok
          exact ⟨[t], rfl, .literal (by rw [hkind]; rfl)⟩
        · rename_i hkind
          obtain ⟨us, rfl, hus⟩ := (reads_datum ih hle hle).1 h
          exact ⟨t :: us, rfl, .tick hkind hus⟩
        · exact absurd h Reads.not_error
      · rintro ⟨us, hts, hus⟩
        cases hus with
        | symbol hkind =>
          cases hts
          rw [hkind]
          exact ⟨t, rfl⟩
        | literal hliteral =>
          cases hts
          cases hkind : t.kind <;> rw [hkind] at hliteral <;> cases hliteral <;> exact ⟨t, rfl⟩
        | @tick _ q us d hkind hus =>
          cases hts
          rw [hkind]
          exact (reads_datum ih hle hle).2 ⟨us, rfl, hus⟩
        | @brackets _ o us e c ho hus hc =>
          simp only [List.cons_append, List.append_assoc, List.nil_append, List.cons.injEq] at hts
          obtain ⟨rfl, rfl⟩ := hts
          rw [ho]
          exact (reads_bracketed ih hle hle).2 ⟨us, c, rfl, hc, hus⟩

theorem programFrom_eq_ok_iff {item : Rule α (Expr α)} {n bound k : Nat} (hitem : ReadsExpressions item n bound)
    {ts : List (Token α)} {done xs : List (Expr α)} (hb : ts.length ≤ bound) (hk : ts.length ≤ k) :
    programFrom item done k ts = .ok xs ↔ ∃ es, Spells n .expressions ts es ∧ xs = done.reverse ++ es := by
  induction k generalizing ts done with
  | zero =>
    obtain rfl := List.length_eq_zero_iff.1 (Nat.le_zero.1 hk)
    unfold programFrom
    constructor
    · intro h
      cases h
      exact ⟨[], .noExpressions, by rw [List.append_nil]⟩
    · rintro ⟨es, hes, rfl⟩
      obtain rfl := ((listOf_expressions n).eq_nil hes)
      rw [List.append_nil]
  | succ k ih =>
    cases ts with
    | nil =>
      unfold programFrom
      constructor
      · intro h
        cases h
        exact ⟨[], .noExpressions, by rw [List.append_nil]⟩
      · rintro ⟨es, hes, rfl⟩
        obtain rfl := ((listOf_expressions n).eq_nil hes)
        rw [List.append_nil]
    | cons t ts =>
      have hlt : ts.length < bound := hb
      rw [List.length_cons] at hk
      unfold programFrom
      constructor
      · intro h
        split at h
        · rename_i next hnext
          obtain ⟨us, hts, hus⟩ := (hitem _ next.value next.unread hb).1 ⟨next.last, hnext⟩
          have hlen := (listOf_expressions n).length_le hus hts
          obtain ⟨es, hes, rfl⟩ := (ih (by omega) (by omega)).1 h
          refine ⟨next.value :: es, ?_, by simp⟩
          rw [hts]
          exact .consExpression hus hes
        · cases h
      · rintro ⟨es, hes, rfl⟩
        generalize hts : t :: ts = us at hes
        cases hes with
        | noExpressions => cases hts
        | @consExpression _ us e vs es hus hvs =>
          have hlen := (listOf_expressions n).length_le hus hts
          obtain ⟨last, hnext⟩ := (hitem _ e vs hb).2 ⟨us, hts, hus⟩
          rw [← hts, hnext]
          dsimp only
          exact (ih (by omega) (by omega)).2 ⟨es, hvs, by simp⟩

/-- **The reader accepts exactly the programs of the grammar**, and returns their expressions. -/
theorem program_eq_ok_iff {nesting : Nat} {ts : List (Token α)} {es : List (Expr α)} :
    program nesting ts = .ok es ↔ Spells nesting .expressions ts es := by
  have hitem := readsExpressions_expression (α := α) nesting ts.length
  refine (programFrom_eq_ok_iff hitem (Nat.le_refl _) (Nat.le_refl _)).trans ⟨?_, ?_⟩
  · rintro ⟨es, hes, rfl⟩
    exact hes
  · intro hes
    exact ⟨es, hes, rfl⟩

end Expr
end MiniScheme
