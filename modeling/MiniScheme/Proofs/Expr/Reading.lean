import MiniScheme.Proofs.Expr.Grammar

/-!
# What the rules without expressions read

A rule of the reader takes exactly the tokens of its part off the front of the input. There is one lemma for each
rule, an equivalence: from left to right it is soundness, from right to left completeness.

* `Reads result value unread` — a rule succeeded.
* `reads_untilClosed` — the repetition of a rule up to a closing bracket reads lists of what the rule reads.
* `reads_expect`, `reads_expectName`, `reads_names`, `reads_params` — the rules for tokens and names.
-/

namespace MiniScheme
namespace Expr

variable {α β γ : Type}

/-- A rule succeeded with a value and left some tokens unread. -/
def Reads (result : Except (Failure α) (Parsed α β)) (value : β) (unread : List (Token α)) : Prop :=
  ∃ last, result = .ok ⟨value, last, unread⟩

namespace Reads

theorem of_ok {value value' : β} {last : Token α} {unread unread' : List (Token α)}
    (h : Reads (.ok ⟨value, last, unread⟩) value' unread') : value' = value ∧ unread' = unread := by
  obtain ⟨last', h⟩ := h
  cases h
  exact ⟨rfl, rfl⟩

theorem not_error {failure : Failure α} {value : β} {unread : List (Token α)} :
    ¬Reads (.error failure) value unread := by
  rintro ⟨last, h⟩
  cases h

theorem of_bind {result : Except (Failure α) (Parsed α β)} {next : Parsed α β → Except (Failure α) (Parsed α γ)}
    {value : γ} {unread : List (Token α)} (h : Reads (result >>= next) value unread) :
    ∃ first last rest, Reads result first rest ∧ Reads (next ⟨first, last, rest⟩) value unread := by
  cases result with
  | error failure => exact absurd h not_error
  | ok parsed => exact ⟨parsed.value, parsed.last, parsed.unread, ⟨parsed.last, rfl⟩, h⟩

theorem bind {result : Except (Failure α) (Parsed α β)} {next : Parsed α β → Except (Failure α) (Parsed α γ)}
    {first : β} {rest : List (Token α)} {value : γ} {unread : List (Token α)} (h : Reads result first rest)
    (hnext : ∀ last, Reads (next ⟨first, last, rest⟩) value unread) : Reads (result >>= next) value unread := by
  obtain ⟨last, rfl⟩ := h
  exact hnext last

end Reads

/-! ## Single tokens and names -/

theorem reads_expect {wanted : Token.Shape} {last : Token α} {ts r : List (Token α)} :
    Reads (expect wanted last ts) () r ↔ ∃ t, ts = t :: r ∧ t.kind.shape = wanted := by
  constructor
  · intro h
    unfold expect at h
    split at h
    · exact absurd h Reads.not_error
    · rename_i t unread
      split at h
      · rename_i hshape
        obtain ⟨_, rfl⟩ := h.of_ok
        exact ⟨t, rfl, hshape⟩
      · exact absurd h Reads.not_error
  · rintro ⟨t, rfl, hshape⟩
    unfold expect
    dsimp only
    rw [if_pos hshape]
    exact ⟨t, rfl⟩

theorem reads_expectName {last : Token α} {ts r : List (Token α)} {name : Name} :
    Reads (expectName last ts) name r ↔ ∃ t, ts = t :: r ∧ t.kind = .symbol ∧ name = t.toName := by
  unfold expectName expect
  constructor
  · intro h
    split at h
    · rename_i parsed hp
      split at hp
      · cases hp
      · rename_i t unread
        split at hp
        · rename_i hshape
          cases hp
          obtain ⟨rfl, rfl⟩ := h.of_ok
          exact ⟨t, rfl, Token.Kind.shape_eq_symbol.1 hshape, rfl⟩
        · cases hp
    · exact absurd h Reads.not_error
  · rintro ⟨t, rfl, hkind, rfl⟩
    dsimp only
    rw [if_pos (Token.Kind.shape_eq_symbol.2 hkind)]
    exact ⟨t, rfl⟩

/-! ## Up to the closing bracket -/

/-- `all` spells lists of what `one` spells, and no element starts with a closing bracket. -/
structure ListOf (one : List (Token α) → β → Prop) (all : List (Token α) → List β → Prop) : Prop where
  nil_iff : ∀ us, all us [] ↔ us = []
  cons_iff : ∀ us b bs, all us (b :: bs) ↔ ∃ vs ws, us = vs ++ ws ∧ one vs b ∧ all ws bs
  head : ∀ us b, one us b → ∃ t ts, us = t :: ts ∧ t.kind ≠ .rightBracket

namespace ListOf

variable {one : List (Token α) → β → Prop} {all : List (Token α) → List β → Prop}

/-- An element takes a token at least. -/
theorem length_le (hall : ListOf one all) {us r ts : List (Token α)} {b : β} {t : Token α} (hus : one us b)
    (hts : t :: ts = us ++ r) : r.length ≤ ts.length := by
  obtain ⟨u, us, rfl, -⟩ := hall.head us b hus
  rw [List.cons_append] at hts
  rw [(List.cons.inj hts).2, List.length_append]
  omega

theorem eq_nil (hall : ListOf one all) {bs : List β} (h : all [] bs) : bs = [] := by
  cases bs with
  | nil => rfl
  | cons b bs =>
    obtain ⟨vs, ws, hnil, hvs, -⟩ := (hall.cons_iff [] b bs).1 h
    obtain ⟨v, vs, rfl, -⟩ := hall.head vs b hvs
    cases hnil

end ListOf

/-- If a rule reads what `one` spells, its repetition reads what `all` spells and the closing bracket after that. -/
theorem reads_untilClosed {one : List (Token α) → β → Prop} {all : List (Token α) → List β → Prop}
    (hall : ListOf one all) {part : Token α → Rule α β} {missing : Token α → Failure.Cause α} {bound k : Nat}
    (hpart : ∀ last ts b r, ts.length ≤ bound → (Reads (part last ts) b r ↔ ∃ us, ts = us ++ r ∧ one us b))
    {last : Token α} {ts r : List (Token α)} {done xs : List β} (hb : ts.length ≤ bound) (hk : ts.length ≤ k) :
    Reads (untilClosed part missing done k last ts) xs r ↔
      ∃ us c bs, ts = us ++ c :: r ∧ c.kind = .rightBracket ∧ all us bs ∧ xs = done.reverse ++ bs := by
  induction k generalizing last ts done with
  | zero =>
    obtain rfl := List.length_eq_zero_iff.1 (Nat.le_zero.1 hk)
    constructor
    · intro h
      exact absurd h Reads.not_error
    · rintro ⟨us, c, bs, hts, _⟩
      cases us <;> cases hts
  | succ k ih =>
    cases ts with
    | nil =>
      constructor
      · intro h
        exact absurd h Reads.not_error
      · rintro ⟨us, c, bs, hts, _⟩
        cases us <;> cases hts
    | cons t ts =>
      have hlt : ts.length < bound := hb
      rw [List.length_cons] at hk
      unfold untilClosed
      dsimp only
      by_cases hclose : t.kind.shape = .rightBracket
      · rw [if_pos hclose]
        have hkind := Token.Kind.shape_eq_rightBracket.1 hclose
        constructor
        · intro h
          obtain ⟨rfl, rfl⟩ := h.of_ok
          exact ⟨[], t, [], rfl, hkind, (hall.nil_iff []).2 rfl, by rw [List.append_nil]⟩
        · rintro ⟨us, c, bs, hts, hc, hus, rfl⟩
          cases bs with
          | nil =>
            rw [hall.nil_iff] at hus
            subst hus
            cases hts
            exact ⟨t, by rw [List.append_nil]⟩
          | cons b bs =>
            obtain ⟨vs, ws, rfl, hvs, -⟩ := (hall.cons_iff us b bs).1 hus
            obtain ⟨v, vs, rfl, hv⟩ := hall.head vs b hvs
            cases hts
            exact absurd hkind hv
      · rw [if_neg hclose]
        constructor
        · intro h
          split at h
          · rename_i next hnext
            obtain ⟨vs, hts, hvs⟩ := (hpart _ _ next.value next.unread hb).1 ⟨next.last, hnext⟩
            have hlen := hall.length_le hvs hts
            obtain ⟨ws, c, bs, hws, hc, hbs, rfl⟩ := (ih (by omega) (by omega)).1 h
            refine ⟨vs ++ ws, c, next.value :: bs, ?_, hc, ?_, by simp⟩
            · rw [hts, hws, List.append_assoc]
            · exact (hall.cons_iff _ _ _).2 ⟨vs, ws, rfl, hvs, hbs⟩
          · exact absurd h Reads.not_error
        · rintro ⟨us, c, bs, hts, hc, hus, rfl⟩
          cases bs with
          | nil =>
            rw [hall.nil_iff] at hus
            subst hus
            cases hts
            rw [hc] at hclose
            exact absurd rfl hclose
          | cons b bs =>
            obtain ⟨vs, ws, rfl, hvs, hws⟩ := (hall.cons_iff us b bs).1 hus
            rw [List.append_assoc] at hts
            have hlen := hall.length_le hvs hts
            obtain ⟨last', hnext⟩ := (hpart last _ b (ws ++ c :: r) hb).2 ⟨vs, hts, hvs⟩
            rw [hnext]
            dsimp only
            exact (ih (by omega) (by omega)).2 ⟨ws, c, bs, rfl, hc, hws, by simp⟩

theorem listOf_names : ListOf (α := α) (fun us x => ∃ t, us = [t] ∧ t.kind = .symbol ∧ x = t.toName)
    (fun us xs => (∀ t ∈ us, t.kind = .symbol) ∧ xs = us.map Token.toName) where
  nil_iff us := by
    constructor
    · rintro ⟨_, hxs⟩
      exact List.map_eq_nil_iff.1 hxs.symm
    · rintro rfl
      exact ⟨nofun, rfl⟩
  cons_iff us x xs := by
    constructor
    · rintro ⟨hus, hxs⟩
      cases us with
      | nil => cases hxs
      | cons t us =>
        cases hxs
        exact ⟨[t], us, rfl, ⟨t, rfl, hus t List.mem_cons_self, rfl⟩, fun t' ht' => hus t' (.tail _ ht'), rfl⟩
    · rintro ⟨_, ws, rfl, ⟨t, rfl, ht, rfl⟩, hws, rfl⟩
      refine ⟨fun t' ht' => ?_, rfl⟩
      cases ht' with
      | head => exact ht
      | tail _ ht' => exact hws t' ht'
  head us x := by
    rintro ⟨t, rfl, ht, rfl⟩
    exact ⟨t, [], rfl, by rw [ht]; nofun⟩

theorem listOf_expressions (n : Nat) : ListOf (α := α) (Spells n .expression) (Spells n .expressions) where
  nil_iff us := by
    constructor
    · rintro ⟨⟩
      rfl
    · rintro rfl
      exact .noExpressions
  cons_iff us e es := by
    constructor
    · intro h
      cases h with
      | consExpression head tail => exact ⟨_, _, rfl, head, tail⟩
    · rintro ⟨vs, ws, rfl, head, tail⟩
      exact .consExpression head tail
  head us e h := h.expression_head

theorem listOf_bindings (n : Nat) : ListOf (α := α) (Spells n .binding) (Spells n .bindings) where
  nil_iff us := by
    constructor
    · rintro ⟨⟩
      rfl
    · rintro rfl
      exact .noBindings
  cons_iff us b bs := by
    constructor
    · intro h
      cases h with
      | consBinding head tail => exact ⟨_, _, rfl, head, tail⟩
    · rintro ⟨vs, ws, rfl, head, tail⟩
      exact .consBinding head tail
  head us b h := h.binding_head

/-! ## Parameters -/

theorem reads_names {k : Nat} {last : Token α} {ts r : List (Token α)} {xs : List Name} (hk : ts.length ≤ k) :
    Reads (names k last ts) xs r ↔ ∃ us c, ts = us ++ c :: r ∧ (∀ t ∈ us, t.kind = .symbol) ∧
      c.kind = .rightBracket ∧ xs = us.map Token.toName := by
  have hpart : ∀ (last : Token α) ts x r, ts.length ≤ k → (Reads (expectName last ts) x r ↔
      ∃ us, ts = us ++ r ∧ ∃ t, us = [t] ∧ t.kind = .symbol ∧ x = t.toName) := by
    intro last ts x r _
    rw [reads_expectName]
    constructor
    · rintro ⟨t, rfl, ht, rfl⟩
      exact ⟨[t], rfl, t, rfl, ht, rfl⟩
    · rintro ⟨_, rfl, t, rfl, ht, rfl⟩
      exact ⟨t, rfl, ht, rfl⟩
  refine (reads_untilClosed listOf_names hpart hk hk).trans ⟨?_, ?_⟩
  · rintro ⟨us, c, _, hts, hc, ⟨hus, rfl⟩, rfl⟩
    exact ⟨us, c, hts, hus, hc, rfl⟩
  · rintro ⟨us, c, hts, hus, hc, rfl⟩
    exact ⟨us, c, _, hts, hc, ⟨hus, rfl⟩, rfl⟩

theorem reads_params {k : Nat} {last : Token α} {ts r : List (Token α)} {ps : Params} (hk : ts.length ≤ k) :
    Reads (params k last ts) ps r ↔ ∃ us, ts = us ++ r ∧ SpellsParams us ps := by
  constructor
  · intro h
    unfold params at h
    split at h
    · rename_i name hname
      obtain ⟨rfl, rfl⟩ := h.of_ok
      obtain ⟨t, rfl, hkind, hx⟩ := reads_expectName.1 ⟨name.last, hname⟩
      exact ⟨[t], rfl, hx ▸ .variadic hkind⟩
    · obtain ⟨_, opening, rest, hopen, h⟩ := h.of_bind
      obtain ⟨xs, closing, rest', hnames, h⟩ := h.of_bind
      obtain ⟨rfl, rfl⟩ := h.of_ok
      obtain ⟨o, rfl, ho⟩ := reads_expect.1 hopen
      rw [List.length_cons] at hk
      obtain ⟨us, c, rfl, hus, hc, rfl⟩ := (reads_names (Nat.le_of_succ_le hk)).1 hnames
      refine ⟨o :: (us ++ [c]), by simp, ?_⟩
      exact .fixed (Token.Kind.shape_eq_leftBracket.1 ho) hus hc
  · rintro ⟨us, rfl, h⟩
    cases h with
    | @variadic t hkind =>
      have hread : Reads (expectName last (t :: r)) t.toName r := reads_expectName.2 ⟨t, rfl, hkind, rfl⟩
      obtain ⟨last', hname⟩ := hread
      unfold params
      rw [List.singleton_append, hname]
      exact ⟨last', rfl⟩
    | @fixed o us c ho hus hc =>
      simp only [List.cons_append, List.append_assoc, List.nil_append, List.length_cons] at hk ⊢
      have hno : ∀ p, expectName last (o :: (us ++ c :: r)) ≠ .ok p := by
        intro p hp
        obtain ⟨t, ht, hkind, _⟩ := reads_expectName.1 ⟨p.last, hp⟩
        obtain ⟨rfl, _⟩ := List.cons.inj ht
        rw [ho] at hkind
        cases hkind
      unfold params
      split
      · rename_i p hp
        exact absurd hp (hno p)
      · refine Reads.bind (reads_expect.2 ⟨o, rfl, by rw [ho]; rfl⟩) fun opening => ?_
        refine Reads.bind ((reads_names (Nat.le_of_succ_le hk)).2 ⟨us, c, rfl, hus, hc, rfl⟩) fun closing => ?_
        exact ⟨closing, rfl⟩

end Expr
end MiniScheme
