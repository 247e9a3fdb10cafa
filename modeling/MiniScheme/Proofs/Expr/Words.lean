import Mathlib.Computability.Language
import MiniScheme.Proofs.Expr.Parsing

/-!
# The words of the grammar

The tokens that spell a part, however deep they are nested, as a language. What the grammar says about a part becomes an
equation between languages, or a list of the ways in which a word goes on behind its first token. No word of an
expression begins another, and that carries over to all that is built from expressions.

* `PrefixCode L` — no word of `L` is empty, and each is split off from what follows in one way.
* `words part` — the language of a part.
* `words_define` and the like — the language of what stands behind a keyword.
* `cons_mem_expression` and the like — how words go on behind their first token.
-/

namespace MiniScheme
namespace Expr

open scoped Computability

/-! ## Codes -/

section Codes

variable {τ : Type} {L M : Language τ}

/-- The language has words, and none is empty. -/
structure Proper (L : Language τ) : Prop where
  nonempty : ∃ u, u ∈ L
  nil_notMem : [] ∉ L

/-- No word goes on where another one ends. -/
structure PrefixCode (L : Language τ) : Prop extends Proper L where
  split : ∀ {u v r s : List τ}, u ∈ L → v ∈ L → u ++ r = v ++ s → u = v

theorem Proper.mul (hL : Proper L) (hM : ∃ u, u ∈ M) : Proper (L * M) where
  nonempty := by
    obtain ⟨u, hu⟩ := hL.nonempty
    obtain ⟨v, hv⟩ := hM
    exact ⟨u ++ v, Language.append_mem_mul hu hv⟩
  nil_notMem := by
    rintro ⟨u, hu, v, hv, hnil⟩
    obtain ⟨rfl, -⟩ := List.append_eq_nil_iff.1 hnil
    exact hL.nil_notMem hu

theorem PrefixCode.mul (hL : PrefixCode L) (hM : PrefixCode M) : PrefixCode (L * M) where
  toProper := hL.toProper.mul hM.nonempty
  split := by
    rintro _ _ r s ⟨a, ha, b, hb, rfl⟩ ⟨c, hc, d, hd, rfl⟩ heq
    simp only [List.append_assoc] at heq
    obtain rfl := hL.split ha hc heq
    obtain rfl := hM.split hb hd (List.append_cancel_left heq)
    rfl

theorem eq_cons_of_append_eq_cons (hnil : [] ∉ L) {u more ts : List τ} {t : τ} (hu : u ∈ L)
    (heq : u ++ more = t :: ts) : ∃ v, u = t :: v ∧ v ++ more = ts := by
  cases u with
  | nil => exact absurd hu hnil
  | cons x v =>
    cases heq
    exact ⟨v, rfl, rfl⟩

theorem mem_kstar_iff {us : List τ} : us ∈ L∗ ↔ us = [] ∨ us ∈ L * L∗ := by
  nth_rewrite 1 [← Language.one_add_self_mul_kstar_eq_kstar]
  rfl

/-- Behind a word of a code, the other words are on their own. -/
theorem PrefixCode.append_mem_kstar (hL : PrefixCode L) {u us : List τ} (hu : u ∈ L) : u ++ us ∈ L∗ ↔ us ∈ L∗ := by
  constructor
  · intro h
    rcases mem_kstar_iff.1 h with hnil | ⟨v, hv, vs, hvs, heq⟩
    · obtain ⟨rfl, -⟩ := List.append_eq_nil_iff.1 hnil
      exact absurd hu hL.nil_notMem
    · obtain rfl := hL.split hv hu heq
      exact List.append_cancel_left heq ▸ hvs
  · intro h
    exact mem_kstar_iff.2 (.inr (Language.append_mem_mul hu h))

end Codes

variable {α : Type}

/-! ## Tokens of one kind, and what is closed by a bracket -/

/-- The tokens of one kind, each alone. -/
def one (shape : Token.Shape) : Language (Token α) := {us | ∃ t, us = [t] ∧ t.kind.shape = shape}

/-- Any number of words and a closing bracket. -/
def closed (L : Language (Token α)) : Language (Token α) := L∗ * one .rightBracket

theorem code_one {shape : Token.Shape} (h : ∃ t : Token α, t.kind.shape = shape) : PrefixCode (one (α := α) shape) where
  nonempty := by
    obtain ⟨t, ht⟩ := h
    exact ⟨[t], t, rfl, ht⟩
  nil_notMem := by
    rintro ⟨t, hnil, -⟩
    cases hnil
  split := by
    rintro _ _ r s ⟨t, rfl, -⟩ ⟨t', rfl, -⟩ heq
    cases heq
    rfl

theorem code_opening : PrefixCode (one (α := α) .leftBracket) := code_one ⟨⟨.leftBracket, 0, "(", 0⟩, rfl⟩

theorem code_closing : PrefixCode (one (α := α) .rightBracket) := code_one ⟨⟨.rightBracket, 0, ")", 0⟩, rfl⟩

theorem code_name : PrefixCode (one (α := α) .symbol) := code_one ⟨⟨.symbol, 0, "x", 0⟩, rfl⟩

/-- No word of the language begins with a closing bracket. -/
def Open (L : Language (Token α)) : Prop := ∀ c us, c.kind = .rightBracket → c :: us ∉ L

theorem open_name : Open (one (α := α) .symbol) := by
  rintro c us hc ⟨t, heq, ht⟩
  cases heq
  rw [hc] at ht
  cases ht

theorem Open.mul {L M : Language (Token α)} (hopen : Open L) (hnil : [] ∉ L) : Open (L * M) := by
  rintro c us hc ⟨u, hu, v, -, heq⟩
  obtain ⟨w, rfl, -⟩ := eq_cons_of_append_eq_cons hnil hu heq
  exact hopen c w hc hu

theorem closed_eq {L : Language (Token α)} (hnil : [] ∉ L) : closed L = L * closed L + one .rightBracket :=
  (Language.self_eq_mul_add_iff hnil).2 rfl

theorem proper_closed (L : Language (Token α)) : Proper (closed L) where
  nonempty := by
    obtain ⟨c, hc⟩ := code_closing (α := α).nonempty
    exact ⟨c, [], Language.nil_mem_kstar L, c, hc, rfl⟩
  nil_notMem := by
    rintro ⟨u, -, v, hv, hnil⟩
    obtain ⟨-, rfl⟩ := List.append_eq_nil_iff.1 hnil
    exact code_closing.nil_notMem hv

theorem cons_mem_closed {L : Language (Token α)} (hnil : [] ∉ L) {t : Token α} {us : List (Token α)} :
    t :: us ∈ closed L ↔ t :: us ∈ L * closed L ∨ (t.kind = .rightBracket ∧ us = []) := by
  nth_rewrite 1 [closed_eq hnil]
  refine or_congr Iff.rfl ⟨?_, ?_⟩
  · rintro ⟨c, heq, hc⟩
    cases heq
    exact ⟨Token.Kind.shape_eq_rightBracket.1 hc, rfl⟩
  · rintro ⟨ht, rfl⟩
    exact ⟨t, rfl, Token.Kind.shape_eq_rightBracket.2 ht⟩

theorem cons_mem_closed_of_closing {L : Language (Token α)} (hnil : [] ∉ L) (hopen : Open L) {c : Token α}
    (hc : c.kind = .rightBracket) {us : List (Token α)} : c :: us ∈ closed L ↔ us = [] := by
  rw [cons_mem_closed hnil, or_iff_right (hopen.mul hnil c us hc)]
  exact and_iff_right hc

theorem cons_mem_closed_of_ne {L : Language (Token α)} (hnil : [] ∉ L) {t : Token α} (ht : t.kind ≠ .rightBracket)
    {us : List (Token α)} : t :: us ∈ closed L ↔ t :: us ∈ L * closed L := by
  rw [cons_mem_closed hnil]
  exact or_iff_left fun h => ht h.1

/-- Words of a code up to a closing bracket are split off in one way, since the bracket begins none of them. -/
theorem PrefixCode.closed {L : Language (Token α)} (hL : PrefixCode L) (hopen : Open L) : PrefixCode (closed L) where
  toProper := proper_closed L
  split := by
    rintro _ v r s ⟨_, ⟨ws, rfl, hws⟩, _, ⟨c, rfl, hc⟩, rfl⟩ hv heq
    dsimp only at heq ⊢
    induction ws generalizing v with
    | nil =>
      obtain ⟨w, rfl, -⟩ := eq_cons_of_append_eq_cons (proper_closed L).nil_notMem hv heq.symm
      rw [(cons_mem_closed_of_closing hL.nil_notMem hopen (Token.Kind.shape_eq_rightBracket.1 hc)).1 hv]
      rfl
    | cons a ws ih =>
      have ha := hws a List.mem_cons_self
      simp only [List.flatten_cons, List.append_assoc] at heq ⊢
      rw [closed_eq hL.nil_notMem] at hv
      rcases hv with ⟨b, hb, v, hv, rfl⟩ | ⟨c', rfl, hc'⟩
      · simp only [List.append_assoc] at heq
        obtain rfl := hL.split ha hb heq
        have hrest := List.append_cancel_left heq
        rw [← List.append_assoc] at hrest
        exact congrArg (a ++ ·) (ih (fun w hw => hws w (List.mem_cons_of_mem _ hw)) hv hrest)
      · obtain ⟨a, rfl, -⟩ := eq_cons_of_append_eq_cons hL.nil_notMem ha heq
        exact absurd ha (hopen c' a (Token.Kind.shape_eq_rightBracket.1 hc'))

/-! ## The parts of the grammar -/

/-- The tokens that spell a part, nested as deep as they may be. -/
def words (part : Part) : Language (Token α) := {us | ∃ n x, Spells n part us x}

/-- The tokens that spell the parameters of a lambda. -/
def paramWords : Language (Token α) := {us | ∃ ps, SpellsParams us ps}

theorem mem_words {part : Part} {us : List (Token α)} : us ∈ words part ↔ ∃ n x, Spells n part us x := Iff.rfl

theorem program_iff {us : List (Token α)} : (∃ es, Program us es) ↔ us ∈ words (α := α) .expressions := exists_comm

theorem code_expression : PrefixCode (words (α := α) .expression) where
  nonempty := ⟨[⟨.symbol, 0, "x", 0⟩], 1, _, .symbol rfl⟩
  nil_notMem := by
    rintro ⟨n, e, h⟩
    obtain ⟨t, ts, hts, -⟩ := h.expression_head
    cases hts
  split := by
    rintro u v r s ⟨n, e, h⟩ ⟨m, f, h'⟩ heq
    exact (h.split_unique h' heq).1

theorem open_expression : Open (words (α := α) .expression) := by
  rintro c us hc ⟨n, e, h⟩
  obtain ⟨t, ts, hts, ht⟩ := h.expression_head
  cases hts
  exact ht hc

/-- What a list of parts spells are words of the part, one after the other. -/
theorem kstar_of_listOf {β : Type} {one : Nat → List (Token α) → β → Prop}
    {all : Nat → List (Token α) → List β → Prop} (hall : ∀ n, ListOf (one n) (all n))
    (hone : ∀ {n m us b}, one n us b → n ≤ m → one m us b)
    (hmono : ∀ {n m us bs}, all n us bs → n ≤ m → all m us bs) {L M : Language (Token α)}
    (hL : ∀ us, us ∈ L ↔ ∃ n b, one n us b) (hM : ∀ us, us ∈ M ↔ ∃ n bs, all n us bs) : M = L∗ := by
  ext us
  rw [hM]
  constructor
  · rintro ⟨n, bs, h⟩
    induction bs generalizing us with
    | nil =>
      obtain rfl := ((hall n).nil_iff us).1 h
      exact Language.nil_mem_kstar _
    | cons b bs ih =>
      obtain ⟨vs, ws, rfl, hvs, hws⟩ := ((hall n).cons_iff us b bs).1 h
      exact mem_kstar_iff.2 (.inr (Language.append_mem_mul ((hL vs).2 ⟨n, b, hvs⟩) (ih ws hws)))
  · rintro ⟨vss, rfl, hvss⟩
    induction vss with
    | nil => exact ⟨0, [], ((hall 0).nil_iff []).2 rfl⟩
    | cons vs vss ih =>
      obtain ⟨n, b, hvs⟩ := (hL vs).1 (hvss vs List.mem_cons_self)
      obtain ⟨m, bs, hws⟩ := ih fun ws hws => hvss ws (List.mem_cons_of_mem _ hws)
      refine ⟨max n m, b :: bs, ((hall _).cons_iff _ b bs).2 ⟨vs, _, rfl, ?_, ?_⟩⟩
      · exact hone hvs (Nat.le_max_left n m)
      · exact hmono hws (Nat.le_max_right n m)

theorem words_expressions : words (α := α) .expressions = (words .expression)∗ :=
  kstar_of_listOf listOf_expressions Spells.mono Spells.mono (fun _ => mem_words) fun _ => mem_words

theorem words_bindings : words (α := α) .bindings = (words .binding)∗ :=
  kstar_of_listOf listOf_bindings Spells.mono Spells.mono (fun _ => mem_words) fun _ => mem_words

theorem words_binding : words (α := α) .binding =
    one .leftBracket * (one .symbol * (words .expression * one .rightBracket)) := by
  ext us
  constructor
  · rintro ⟨n, b, h⟩
    cases h with
    | @binding _ o x us e c ho hx hus hc =>
      exact ⟨[o], ⟨o, rfl, Token.Kind.shape_eq_leftBracket.2 ho⟩, _,
        ⟨[x], ⟨x, rfl, Token.Kind.shape_eq_symbol.2 hx⟩, _,
          ⟨us, ⟨n, e, hus⟩, [c], ⟨c, rfl, Token.Kind.shape_eq_rightBracket.2 hc⟩, rfl⟩, rfl⟩, rfl⟩
  · rintro ⟨_, ⟨o, rfl, ho⟩, _, ⟨_, ⟨x, rfl, hx⟩, _, ⟨us, ⟨n, e, hus⟩, _, ⟨c, rfl, hc⟩, rfl⟩, rfl⟩, rfl⟩
    exact ⟨n, _, .binding (Token.Kind.shape_eq_leftBracket.1 ho) (Token.Kind.shape_eq_symbol.1 hx) hus
      (Token.Kind.shape_eq_rightBracket.1 hc)⟩

theorem code_binding : PrefixCode (words (α := α) .binding) := by
  rw [words_binding]
  exact code_opening.mul (code_name.mul (code_expression.mul code_closing))

theorem open_binding : Open (words (α := α) .binding) := by
  rintro c us hc ⟨n, b, h⟩
  obtain ⟨t, ts, hts, ht⟩ := h.binding_head
  cases hts
  exact ht hc

theorem closed_expression : words (α := α) .expressions * one .rightBracket = closed (words .expression) := by
  rw [words_expressions, closed]

theorem closed_binding : words (α := α) .bindings * one .rightBracket = closed (words .binding) := by
  rw [words_bindings, closed]

/-! ## Parameters and quoted data -/

theorem cons_mem_params {t : Token α} {us : List (Token α)} : t :: us ∈ paramWords ↔
    (t.kind = .symbol ∧ us = []) ∨ (t.kind = .leftBracket ∧ us ∈ closed (one .symbol)) := by
  constructor
  · rintro ⟨ps, h⟩
    cases h with
    | variadic ht => exact .inl ⟨ht, rfl⟩
    | @fixed _ names c ho hnames hc =>
      refine .inr ⟨ho, names, ⟨names.map ([·]), ?_, ?_⟩, [c], ⟨c, rfl, Token.Kind.shape_eq_rightBracket.2 hc⟩, rfl⟩
      · rw [← List.flatMap_def, List.flatMap_singleton']
      · intro us hus
        obtain ⟨x, hx, rfl⟩ := List.mem_map.1 hus
        exact ⟨x, rfl, Token.Kind.shape_eq_symbol.2 (hnames x hx)⟩
  · rintro (⟨ht, rfl⟩ | ⟨ht, _, ⟨ws, rfl, hws⟩, _, ⟨c, rfl, hc⟩, rfl⟩)
    · exact ⟨_, .variadic ht⟩
    · refine ⟨_, .fixed ht ?_ (Token.Kind.shape_eq_rightBracket.1 hc)⟩
      intro x hx
      obtain ⟨us, hus, hx⟩ := List.mem_flatten.1 hx
      obtain ⟨x', rfl, hx'⟩ := hws us hus
      obtain rfl := List.mem_singleton.1 hx
      exact Token.Kind.shape_eq_symbol.1 hx'

theorem code_params : PrefixCode (paramWords (α := α)) where
  nonempty := ⟨[⟨.symbol, 0, "x", 0⟩], _, .variadic rfl⟩
  nil_notMem := by
    rintro ⟨ps, h⟩
    cases h
  split := by
    rintro (_ | ⟨t, u⟩) (_ | ⟨t', v⟩) r s ⟨ps, h⟩ ⟨qs, h'⟩ heq
    · rfl
    · cases h
    · cases h'
    · obtain ⟨rfl, htails⟩ := List.cons.inj heq
      rcases cons_mem_params.1 ⟨ps, h⟩ with ⟨ht, rfl⟩ | ⟨ht, hu⟩
      · rcases cons_mem_params.1 ⟨qs, h'⟩ with ⟨-, rfl⟩ | ⟨ht', -⟩
        · rfl
        · cases ht.symm.trans ht'
      · rcases cons_mem_params.1 ⟨qs, h'⟩ with ⟨ht', -⟩ | ⟨-, hv⟩
        · cases ht.symm.trans ht'
        · rw [(code_name.closed open_name).split hu hv htails]

/-- A datum with a tick in front is an expression, so a datum is split off as an expression is. -/
theorem code_datum : PrefixCode (words (α := α) .datum) where
  nonempty := by
    refine ⟨[⟨.symbol, 0, "x", 0⟩], 1, _, .other ?_ (.symbol rfl)⟩
    rintro t ⟨⟩
    nofun
  nil_notMem := by
    rintro ⟨n, d, h⟩
    cases h with
    | other noBracket value => exact code_expression.nil_notMem ⟨n, d, value⟩
  split := by
    rintro u v r s ⟨n, d, h⟩ ⟨m, d', h'⟩ heq
    let tick : Token α := ⟨.quote, 0, "'", 0⟩
    have hu : tick :: u ∈ words .expression := ⟨n + 1, d, .tick rfl h⟩
    have hv : tick :: v ∈ words .expression := ⟨m + 1, d', .tick rfl h'⟩
    exact (List.cons.inj (code_expression.split hu hv (congrArg (tick :: ·) heq))).2

theorem cons_mem_datum {t : Token α} {us : List (Token α)} : t :: us ∈ words .datum ↔
    (t.kind = .leftBracket ∧ us ∈ closed (words .expression)) ∨
      (t.kind ≠ .leftBracket ∧ t :: us ∈ words .expression) := by
  rw [← closed_expression]
  constructor
  · rintro ⟨n, d, h⟩
    generalize hts : t :: us = ts at h
    cases h with
    | @list _ o vs es c ho hvs hc =>
      cases hts
      exact .inl ⟨ho, vs, ⟨n, es, hvs⟩, [c], ⟨c, rfl, Token.Kind.shape_eq_rightBracket.2 hc⟩, rfl⟩
    | other noBracket value =>
      subst hts
      exact .inr ⟨noBracket t rfl, n, d, value⟩
  · rintro (⟨ht, vs, ⟨n, es, hvs⟩, _, ⟨c, rfl, hc⟩, rfl⟩ | ⟨ht, n, d, value⟩)
    · exact ⟨n, _, .list ht hvs (Token.Kind.shape_eq_rightBracket.1 hc)⟩
    · refine ⟨n, d, .other ?_ value⟩
      rintro u ⟨⟩
      exact ht

/-! ## What stands behind a keyword -/

theorem words_lambda : words (α := α) (.form .lambda) = paramWords * words .expressions := by
  ext us
  constructor
  · rintro ⟨n, e, h⟩
    cases h with
    | lambda params body => exact ⟨_, ⟨_, params⟩, _, ⟨n, _, body⟩, rfl⟩
  · rintro ⟨_, ⟨ps, params⟩, _, ⟨n, es, body⟩, rfl⟩
    exact ⟨n, _, .lambda params body⟩

theorem words_define : words (α := α) (.form .define) = one .symbol * words .expression := by
  ext us
  constructor
  · rintro ⟨n, e, h⟩
    cases h with
    | @define _ x us e hx value => exact ⟨[x], ⟨x, rfl, Token.Kind.shape_eq_symbol.2 hx⟩, us, ⟨n, e, value⟩, rfl⟩
  · rintro ⟨_, ⟨x, rfl, hx⟩, us, ⟨n, e, value⟩, rfl⟩
    exact ⟨n, _, .define (Token.Kind.shape_eq_symbol.1 hx) value⟩

theorem words_assign : words (α := α) (.form .assign) = one .symbol * words .expression := by
  ext us
  constructor
  · rintro ⟨n, e, h⟩
    cases h with
    | @assign _ x us e hx value => exact ⟨[x], ⟨x, rfl, Token.Kind.shape_eq_symbol.2 hx⟩, us, ⟨n, e, value⟩, rfl⟩
  · rintro ⟨_, ⟨x, rfl, hx⟩, us, ⟨n, e, value⟩, rfl⟩
    exact ⟨n, _, .assign (Token.Kind.shape_eq_symbol.1 hx) value⟩

theorem words_cond : words (α := α) (.form .cond) =
    words .expression * (words .expression * (1 + words .expression)) := by
  ext us
  constructor
  · rintro ⟨n, e, h⟩
    cases h with
    | @cond _ us a vs b test chosen =>
      exact ⟨us, ⟨n, a, test⟩, vs, ⟨vs, ⟨n, b, chosen⟩, [], .inl rfl, List.append_nil vs⟩, rfl⟩
    | @condElse _ us a vs b ws c test chosen other =>
      exact ⟨us, ⟨n, a, test⟩, _, ⟨vs, ⟨n, b, chosen⟩, ws, .inr ⟨n, c, other⟩, rfl⟩, rfl⟩
  · rintro ⟨us, ⟨n, a, test⟩, _, ⟨vs, ⟨m, b, chosen⟩, ws, rfl | ⟨k, c, other⟩, rfl⟩, rfl⟩
    · refine ⟨max n m, .cond a b none, ?_⟩
      dsimp only
      rw [List.append_nil]
      exact .cond (test.mono (by omega)) (chosen.mono (by omega))
    · exact ⟨max n (max m k), _,
        .condElse (test.mono (by omega)) (chosen.mono (by omega)) (other.mono (by omega))⟩

theorem words_letIn : words (α := α) (.form .letIn) =
    one .leftBracket * (words .bindings * (one .rightBracket * words .expressions)) := by
  ext us
  constructor
  · rintro ⟨n, e, h⟩
    cases h with
    | @letIn _ o us bs c vs es ho bindings hc body =>
      exact ⟨[o], ⟨o, rfl, Token.Kind.shape_eq_leftBracket.2 ho⟩, _, ⟨us, ⟨n, bs, bindings⟩, _,
        ⟨[c], ⟨c, rfl, Token.Kind.shape_eq_rightBracket.2 hc⟩, vs, ⟨n, es, body⟩, rfl⟩, rfl⟩, rfl⟩
  · rintro ⟨_, ⟨o, rfl, ho⟩, _, ⟨us, ⟨n, bs, bindings⟩, _, ⟨_, ⟨c, rfl, hc⟩, vs, ⟨m, es, body⟩, rfl⟩, rfl⟩, rfl⟩
    exact ⟨max n m, _, .letIn (Token.Kind.shape_eq_leftBracket.1 ho) (bindings.mono (by omega))
      (Token.Kind.shape_eq_rightBracket.1 hc) (body.mono (by omega))⟩

theorem words_quote : words (α := α) (.form .quote) = words .datum := by
  ext us
  constructor
  · rintro ⟨n, e, h⟩
    cases h with
    | quote datum => exact ⟨n, _, datum⟩
  · rintro ⟨n, d, datum⟩
    exact ⟨n, _, .quote datum⟩

/-! ## What stands in brackets, and expressions -/

theorem proper_inside : Proper (words (α := α) .inside * one .rightBracket) where
  nonempty := by
    obtain ⟨c, hc⟩ := code_closing (α := α).nonempty
    exact ⟨_, Language.append_mem_mul ⟨0, _, .empty⟩ hc⟩
  nil_notMem := by
    rintro ⟨us, -, c, hc, hnil⟩
    obtain ⟨-, rfl⟩ := List.append_eq_nil_iff.1 hnil
    exact code_closing.nil_notMem hc

theorem cons_mem_inside {t : Token α} {us : List (Token α)} : t :: us ∈ words .inside * one .rightBracket ↔
    (t.kind = .rightBracket ∧ us = []) ∨
      (∃ k, keyword? t = some k ∧ us ∈ words (.form k) * one .rightBracket) ∨
      (keyword? t = none ∧ t :: us ∈ words .expression * closed (words .expression)) := by
  rw [← closed_expression]
  constructor
  · rintro ⟨vs, ⟨n, e, h⟩, _, ⟨c, rfl, hc⟩, heq⟩
    cases h with
    | empty =>
      cases heq
      exact .inl ⟨Token.Kind.shape_eq_rightBracket.1 hc, rfl⟩
    | @call _ vs f ws es hno callee args =>
      obtain ⟨v, vs, rfl, -⟩ := callee.expression_head
      cases heq
      exact .inr (.inr ⟨hno t rfl, t :: vs, ⟨n, f, callee⟩, _, ⟨ws, ⟨n, es, args⟩, [c], ⟨c, rfl, hc⟩, rfl⟩, by simp⟩)
    | @special _ w k vs e word form =>
      cases heq
      exact .inr (.inl ⟨k, word, vs, ⟨n, e, form⟩, [c], ⟨c, rfl, hc⟩, rfl⟩)
  · rintro (⟨ht, rfl⟩ | ⟨k, word, vs, ⟨n, e, form⟩, _, hc, rfl⟩ |
      ⟨hno, vs, ⟨n, f, callee⟩, _, ⟨ws, ⟨m, es, args⟩, c, hc, rfl⟩, heq⟩)
    · exact ⟨[], ⟨0, _, .empty⟩, [t], ⟨t, rfl, Token.Kind.shape_eq_rightBracket.2 ht⟩, rfl⟩
    · exact ⟨t :: vs, ⟨n, e, .special word form⟩, _, hc, rfl⟩
    · refine ⟨vs ++ ws, ⟨max n m, _, .call ?_ (callee.mono (by omega)) (args.mono (by omega))⟩, c, hc, ?_⟩
      · obtain ⟨v, vs, rfl, -⟩ := callee.expression_head
        cases heq
        rintro u ⟨⟩
        exact hno
      · exact (List.append_assoc vs ws c).trans heq

theorem cons_mem_expression {t : Token α} {us : List (Token α)} : t :: us ∈ words .expression ↔
    ((t.kind = .symbol ∨ ∃ v, t.kind.literal? = some v) ∧ us = []) ∨
      (t.kind = .quote ∧ us ∈ words .datum) ∨
      (t.kind = .leftBracket ∧ us ∈ words .inside * one .rightBracket) := by
  constructor
  · rintro ⟨n, e, h⟩
    generalize hts : t :: us = ts at h
    cases h with
    | symbol ht =>
      cases hts
      exact .inl ⟨.inl ht, rfl⟩
    | literal ht =>
      cases hts
      exact .inl ⟨.inr ⟨_, ht⟩, rfl⟩
    | tick ht datum =>
      cases hts
      exact .inr (.inl ⟨ht, _, _, datum⟩)
    | @brackets _ o vs e c ho inside hc =>
      cases hts
      exact .inr (.inr ⟨ho, vs, ⟨_, e, inside⟩, [c], ⟨c, rfl, Token.Kind.shape_eq_rightBracket.2 hc⟩, rfl⟩)
  · rintro (⟨ht | ⟨v, ht⟩, rfl⟩ | ⟨ht, n, d, datum⟩ | ⟨ht, vs, ⟨n, e, inside⟩, _, ⟨c, rfl, hc⟩, rfl⟩)
    · exact ⟨1, _, .symbol ht⟩
    · exact ⟨1, _, .literal ht⟩
    · exact ⟨n + 1, d, .tick ht datum⟩
    · exact ⟨n + 1, e, .brackets ht inside (Token.Kind.shape_eq_rightBracket.1 hc)⟩

end Expr
end MiniScheme
