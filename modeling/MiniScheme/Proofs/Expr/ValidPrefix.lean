import Mathlib.Data.List.TakeWhile
import MiniScheme.Proofs.Expr.Words

/-!
# Errors at the first token that fits nothing

The reader stops at the first token with which no program goes on. What it has read up to there is the beginning of a
program, so that it is at the end of the input exactly if more input could complete it.

* `StopsAt L us rest` — the tokens `us` begin a word of `L`, but not together with the next token.
* `Obeys prev L ts result` — a rule has read a word of `L`, or has stopped at such a place; there is one lemma for each
  rule of the reader.
* `parse_stops` — the parser stops at such a place, and reports the line of the next token or of the one before.
-/

namespace MiniScheme
namespace Expr

open scoped Computability

variable {α β γ : Type}

/-! ## Rules that obey a language -/

/-- The tokens `us` begin a word, but nothing that goes on with the next token after them begins with a word. -/
structure StopsAt (L : Language (Token α)) (us rest : List (Token α)) : Prop where
  viable : ∃ more, us ++ more ∈ L
  dead : ∀ t ∈ rest.head?, ∀ v ∈ L, ∀ more more', v ++ more ≠ us ++ t :: more'

/-- A rule for the words of a language, after the token `prev`, has read a word, or has stopped where no word goes on.
It knows the last token before the place where it ends. -/
structure Obeys (prev : Option (Token α)) (L : Language (Token α)) (ts : List (Token α))
    (result : Except (Failure α) (Parsed α β)) : Prop where
  ok : ∀ p, result = .ok p → ∃ us ∈ L, ts = us ++ p.unread ∧ us.getLast?.or prev = some p.last
  error : ∀ f, result = .error f → f.cause ≠ .nestingTooDeep → ∃ us, ts = us ++ f.unread ∧ StopsAt L us f.unread ∧
    ∀ last wanted, f.cause = .expected last wanted → us.getLast?.or prev = some last

namespace StopsAt

variable {L M : Language (Token α)} {us vs rest : List (Token α)}

theorem mul_right (h : StopsAt L us rest) (hM : ∃ v, v ∈ M) : StopsAt (L * M) us rest where
  viable := by
    obtain ⟨more, hmore⟩ := h.viable
    obtain ⟨v, hv⟩ := hM
    exact ⟨more ++ v, List.append_assoc us more v ▸ Language.append_mem_mul hmore hv⟩
  dead := by
    rintro t ht _ ⟨v, hv, w, -, rfl⟩ more more'
    rw [List.append_assoc]
    exact h.dead t ht v hv (w ++ more) more'

theorem mul_left (hL : PrefixCode L) (hvs : vs ∈ L) (h : StopsAt M us rest) : StopsAt (L * M) (vs ++ us) rest where
  viable := by
    obtain ⟨more, hmore⟩ := h.viable
    exact ⟨more, List.append_assoc vs us more ▸ Language.append_mem_mul hvs hmore⟩
  dead := by
    rintro t ht _ ⟨v, hv, w, hw, rfl⟩ more more' heq
    simp only [List.append_assoc] at heq
    obtain rfl := hL.split hv hvs heq
    exact h.dead t ht w hw more more' (List.append_cancel_left heq)

end StopsAt

namespace Obeys

variable {prev : Option (Token α)} {last t : Token α} {L M : Language (Token α)} {ts unread : List (Token α)}
  {result : Except (Failure α) (Parsed α β)}

theorem done {value : β} : Obeys (some last) 1 unread (.ok ⟨value, last, unread⟩) where
  ok p hp := by
    cases hp
    exact ⟨[], Language.nil_mem_one, rfl, rfl⟩
  error := nofun

/-- After a word of a code, the next rule is on its own. -/
theorem bind {next : Parsed α β → Except (Failure α) (Parsed α γ)} (h : Obeys prev L ts result) (hL : PrefixCode L)
    (hM : ∃ v, v ∈ M) (hnext : ∀ p, p.unread.length < ts.length → Obeys (some p.last) M p.unread (next p)) :
    Obeys prev (L * M) ts (result >>= next) := by
  cases result with
  | error f =>
    refine ⟨nofun, fun f' hf hcause => ?_⟩
    cases hf
    obtain ⟨us, hts, hstops, hlast⟩ := h.error f rfl hcause
    exact ⟨us, hts, hstops.mul_right hM, hlast⟩
  | ok p =>
    obtain ⟨us, hus, hts, hlast⟩ := h.ok p rfl
    have hlt : p.unread.length < ts.length := by
      rw [hts, List.length_append]
      have hne : us ≠ [] := fun hnil => hL.nil_notMem (hnil ▸ hus)
      have hpos := List.length_pos_iff.2 hne
      omega
    have hprev (vs : List (Token α)) : (us ++ vs).getLast?.or prev = vs.getLast?.or (some p.last) := by
      rw [List.getLast?_append, Option.or_assoc, hlast]
    constructor
    · intro q hq
      obtain ⟨vs, hvs, hunread, hlast'⟩ := (hnext p hlt).ok q hq
      refine ⟨us ++ vs, Language.append_mem_mul hus hvs, ?_, (hprev vs).trans hlast'⟩
      rw [hts, hunread, List.append_assoc]
    · intro f hf hcause
      obtain ⟨vs, hunread, hstops, hlast'⟩ := (hnext p hlt).error f hf hcause
      exact ⟨us ++ vs, by rw [hts, hunread, List.append_assoc], hstops.mul_left hL hus,
        fun last wanted hf => (hprev vs).trans (hlast' last wanted hf)⟩

theorem map (f : Parsed α β → γ) (h : Obeys prev L ts result) :
    Obeys prev L ts (result >>= fun p => .ok ⟨f p, p.last, p.unread⟩) := by
  cases result with
  | error e =>
    refine ⟨nofun, fun f' hf => ?_⟩
    cases hf
    exact h.error e rfl
  | ok p =>
    refine ⟨fun q hq => ?_, nofun⟩
    cases hq
    exact h.ok p rfl

/-- Behind the first token of a word, the rest of the word is to be read. -/
theorem cons (hnil : [] ∉ L) (hcons : ∀ us, t :: us ∈ L ↔ us ∈ M) (h : Obeys (some t) M unread result) :
    Obeys prev L (t :: unread) result := by
  have hprev (us : List (Token α)) : (t :: us).getLast?.or prev = us.getLast?.or (some t) := by
    rw [← List.singleton_append, List.getLast?_append, Option.or_assoc]
    rfl
  constructor
  · intro p hp
    obtain ⟨us, hus, rfl, hlast⟩ := h.ok p hp
    exact ⟨t :: us, (hcons us).2 hus, rfl, (hprev us).trans hlast⟩
  · intro f hf hcause
    obtain ⟨us, rfl, hstops, hlast⟩ := h.error f hf hcause
    refine ⟨t :: us, rfl, ⟨?_, ?_⟩, fun last wanted hf => (hprev us).trans (hlast last wanted hf)⟩
    · obtain ⟨more, hmore⟩ := hstops.viable
      exact ⟨more, (hcons _).2 hmore⟩
    · intro u hu v hv more more' heq
      obtain ⟨w, rfl, hw⟩ := eq_cons_of_append_eq_cons hnil hv heq
      exact hstops.dead u hu w ((hcons w).1 hv) more more' hw

/-- Only the words that begin with the next token matter. -/
theorem of_head (hL : Proper L) (hM : Proper M) (heq : ∀ t ∈ ts.head?, ∀ us, t :: us ∈ L ↔ t :: us ∈ M)
    (h : Obeys prev L ts result) : Obeys prev M ts result := by
  constructor
  · intro p hp
    obtain ⟨us, hus, rfl, hlast⟩ := h.ok p hp
    cases us with
    | nil => exact absurd hus hL.nil_notMem
    | cons t us => exact ⟨t :: us, (heq t rfl us).1 hus, rfl, hlast⟩
  · intro f hf hcause
    obtain ⟨us, rfl, hstops, hlast⟩ := h.error f hf hcause
    refine ⟨us, rfl, ⟨?_, ?_⟩, hlast⟩
    · cases us with
      | nil => exact hM.nonempty
      | cons t us =>
        obtain ⟨more, hmore⟩ := hstops.viable
        exact ⟨more, (heq t rfl _).1 hmore⟩
    · intro u hu v hv more more' hvs
      cases v with
      | nil => exact hM.nil_notMem hv
      | cons t v =>
        refine hstops.dead u hu (t :: v) ((heq t ?_ v).2 hv) more more' hvs
        have hhead := congrArg List.head? hvs
        cases us with
        | nil =>
          cases hhead
          exact hu
        | cons _ us => exact hhead.symm

/-- A rule may stop at once if no word begins with the next token. -/
theorem stuck {cause : Failure.Cause α} (hL : Proper L) (hno : ∀ t ∈ ts.head?, ∀ us, t :: us ∉ L)
    (hlast : ∀ last wanted, cause = .expected last wanted → prev = some last) :
    Obeys (β := β) prev L ts (.error ⟨cause, ts⟩) := by
  refine ⟨nofun, fun f hf _ => ?_⟩
  cases hf
  refine ⟨[], rfl, ⟨hL.nonempty, fun t ht v hv more more' heq => ?_⟩, hlast⟩
  obtain ⟨w, rfl, -⟩ := eq_cons_of_append_eq_cons hL.nil_notMem hv heq
  exact hno t ht w hv

end Obeys

/-! ## Single tokens and names -/

theorem obeys_expect {wanted : Token.Shape} (hcode : PrefixCode (one (α := α) wanted)) {last : Token α}
    {ts : List (Token α)} : Obeys (some last) (one wanted) ts (expect wanted last ts) := by
  have hlast : ∀ last' wanted', Failure.Cause.expected last wanted = .expected last' wanted' →
      some last = some last' := by
    rintro _ _ ⟨⟩
    rfl
  cases ts with
  | nil => exact .stuck hcode.toProper nofun hlast
  | cons t ts =>
    unfold expect
    dsimp only
    split
    · rename_i ht
      refine .cons hcode.nil_notMem (fun us => ?_) .done
      constructor
      · rintro ⟨t', heq, -⟩
        cases heq
        rfl
      · rintro rfl
        exact ⟨t, rfl, ht⟩
    · rename_i ht
      refine .stuck hcode.toProper ?_ hlast
      rintro _ ⟨⟩ us ⟨t', heq, ht'⟩
      cases heq
      exact ht ht'

theorem obeys_expectName {last : Token α} {ts : List (Token α)} :
    Obeys (some last) (one .symbol) ts (expectName last ts) := by
  have hexpect : Obeys (some last) (one .symbol) ts (expect .symbol last ts) := obeys_expect code_name
  have hmap := hexpect.map fun name => name.last.toName
  unfold expectName
  split <;> rename_i heq <;> rw [heq] at hmap <;> exact hmap

/-! ## Up to the closing bracket -/

theorem obeys_untilClosed {L : Language (Token α)} (hL : PrefixCode L) (hopen : Open L) {part : Token α → Rule α β}
    {missing : Token α → Failure.Cause α} {bound k : Nat}
    (hpart : ∀ last ts, ts.length ≤ bound → Obeys (some last) L ts (part last ts))
    (hmissing : ∀ last last' wanted, missing last = .expected last' wanted → last = last') {done : List β}
    {last : Token α} {ts : List (Token α)} (hb : ts.length ≤ bound) (hk : ts.length ≤ k) :
    Obeys (some last) (closed L) ts (untilClosed part missing done k last ts) := by
  have hlast (last : Token α) : ∀ last' wanted, missing last = .expected last' wanted → some last = some last' :=
    fun last' wanted h => congrArg some (hmissing last last' wanted h)
  induction k generalizing last ts done with
  | zero =>
    obtain rfl := List.length_eq_zero_iff.1 (Nat.le_zero.1 hk)
    exact .stuck (proper_closed L) nofun (hlast last)
  | succ k ih =>
    cases ts with
    | nil => exact .stuck (proper_closed L) nofun (hlast last)
    | cons t ts =>
      unfold untilClosed
      dsimp only
      split
      · rename_i ht
        exact .cons (proper_closed L).nil_notMem
          (fun us => cons_mem_closed_of_closing hL.nil_notMem hopen (Token.Kind.shape_eq_rightBracket.1 ht)) .done
      · rename_i ht
        let more (next : Parsed α β) := untilClosed part missing (next.value :: done) k next.last next.unread
        have hloop : Obeys (some last) (L * closed L) (t :: ts) (part last (t :: ts) >>= more) :=
          (hpart last (t :: ts) hb).bind hL (proper_closed L).nonempty
            fun next hlt => ih (by omega) (by rw [List.length_cons] at hk hlt; omega)
        have hhead : ∀ t' ∈ (t :: ts).head?, ∀ us, t' :: us ∈ L * closed L ↔ t' :: us ∈ closed L := by
          rintro _ ⟨⟩ us
          exact (cons_mem_closed_of_ne hL.nil_notMem (mt Token.Kind.shape_eq_rightBracket.2 ht)).symm
        refine .of_head (hL.toProper.mul (proper_closed L).nonempty) (proper_closed L) hhead ?_
        cases hresult : part last (t :: ts) <;> rw [hresult] at hloop <;> exact hloop

theorem obeys_names {k : Nat} {last : Token α} {ts : List (Token α)} (hk : ts.length ≤ k) :
    Obeys (some last) (closed (one .symbol)) ts (names k last ts) := by
  refine obeys_untilClosed code_name open_name (fun _ _ _ => obeys_expectName) ?_ (Nat.le_refl _) hk
  rintro last _ _ ⟨⟩
  rfl

theorem obeys_params {k : Nat} {last : Token α} {ts : List (Token α)} (hk : ts.length ≤ k) :
    Obeys (some last) paramWords ts (params k last ts) := by
  cases ts with
  | nil =>
    refine .stuck code_params.toProper nofun ?_
    rintro _ _ ⟨⟩
    rfl
  | cons t ts =>
    unfold params expectName expect
    dsimp only
    by_cases hname : t.kind.shape = .symbol
    · rw [if_pos hname]
      refine .cons code_params.nil_notMem (fun us => ?_) .done
      rw [cons_mem_params]
      simp [Token.Kind.shape_eq_symbol.1 hname, Language.mem_one]
    rw [if_neg hname]
    by_cases hopening : t.kind.shape = .leftBracket
    · rw [if_pos hopening]
      have hnames : Obeys (some t) (closed (one .symbol)) ts (names k t ts) := obeys_names (Nat.le_of_succ_le hk)
      refine .cons code_params.nil_notMem (fun us => ?_) (hnames.map fun fixed => Params.fixed fixed.value)
      rw [cons_mem_params]
      simp [Token.Kind.shape_eq_leftBracket.1 hopening]
    · rw [if_neg hopening]
      refine .stuck code_params.toProper ?_ ?_
      · rintro _ ⟨⟩ us hus
        rcases cons_mem_params.1 hus with ⟨ht, -⟩ | ⟨ht, -⟩
        · exact hname (Token.Kind.shape_eq_symbol.2 ht)
        · exact hopening (Token.Kind.shape_eq_leftBracket.2 ht)
      · rintro _ _ ⟨⟩
        rfl

/-! ## Inside brackets -/

/-- On up to `bound` tokens the rule obeys the language of expressions. -/
def ObeysExpressions (item : Rule α (Expr α)) (bound : Nat) : Prop :=
  ∀ prev ts, ts.length ≤ bound → Obeys prev (words .expression) ts (item ts)

section Bracketed

variable {item : Rule α (Expr α)} {bound : Nat} (hitem : ObeysExpressions item bound)
include hitem

theorem obeys_items {k : Nat} {last : Token α} {ts : List (Token α)} (hb : ts.length ≤ bound) (hk : ts.length ≤ k) :
    Obeys (some last) (closed (words .expression)) ts (items item k last ts) :=
  obeys_untilClosed code_expression open_expression (fun last ts => hitem (some last) ts) (fun _ _ _ h => by cases h)
    hb hk

theorem obeys_binding {last : Token α} {ts : List (Token α)} (hb : ts.length ≤ bound) :
    Obeys (some last) (words .binding) ts (binding item last ts) := by
  rw [words_binding]
  refine (obeys_expect code_opening).bind code_opening ?_ fun opening ho => ?_
  · exact (code_name.mul (code_expression.mul code_closing)).nonempty
  refine obeys_expectName.bind code_name (code_expression.mul code_closing).nonempty fun name hname => ?_
  refine (hitem _ _ (by omega)).bind code_expression code_closing.nonempty fun value _ => ?_
  exact (obeys_expect code_closing).map _

theorem obeys_bindings {k : Nat} {last : Token α} {ts : List (Token α)} (hb : ts.length ≤ bound)
    (hk : ts.length ≤ k) : Obeys (some last) (closed (words .binding)) ts (bindings item k last ts) := by
  refine obeys_untilClosed code_binding open_binding (fun _ _ hts => obeys_binding hitem hts) ?_ hb hk
  rintro last _ _ ⟨⟩
  rfl

theorem obeys_datum {k : Nat} {prev : Option (Token α)} {ts : List (Token α)} (hb : ts.length ≤ bound)
    (hk : ts.length ≤ k) : Obeys prev (words .datum) ts (datum item k ts) := by
  cases ts with
  | nil => exact (hitem prev [] hb).of_head code_expression.toProper code_datum.toProper nofun
  | cons t ts =>
    unfold datum
    dsimp only
    split
    · rename_i ht
      have hitems : Obeys (some t) (closed (words .expression)) ts (items item k t ts) :=
        obeys_items hitem (Nat.le_of_succ_le hb) (Nat.le_of_succ_le hk)
      refine .cons code_datum.nil_notMem (fun us => ?_) (hitems.map fun all => Expr.list all.value)
      rw [cons_mem_datum]
      simp [Token.Kind.shape_eq_leftBracket.1 ht]
    · rename_i ht
      refine (hitem prev (t :: ts) hb).of_head code_expression.toProper code_datum.toProper ?_
      rintro _ ⟨⟩ us
      rw [cons_mem_datum]
      simp [mt Token.Kind.shape_eq_leftBracket.2 ht]

theorem obeys_nameAndValue {word : Token α} {ts : List (Token α)} (hb : ts.length ≤ bound) :
    Obeys (some word) (one .symbol * (words .expression * one .rightBracket)) ts (nameAndValue item word ts) := by
  refine obeys_expectName.bind code_name (code_expression.mul code_closing).nonempty fun name hname => ?_
  refine (hitem _ _ (by omega)).bind code_expression code_closing.nonempty fun value _ => ?_
  exact (obeys_expect code_closing).map _

/-- The last branch of an `if` and the closing bracket. -/
theorem obeys_otherwise {last : Token α} {ts : List (Token α)} (hb : ts.length ≤ bound)
    (f : Option (Expr α) → Expr α) :
    Obeys (some last) ((1 + words .expression) * one .rightBracket) ts (do
      let other ← otherwise item last ts
      let closing ← expect .rightBracket other.last other.unread
      return ⟨f other.value, closing.last, closing.unread⟩) := by
  have hbranch := code_expression.toProper.mul (code_closing (α := α)).nonempty
  rw [add_mul, one_mul]
  have hproper : Proper (one (α := α) .rightBracket + words .expression * one .rightBracket) := by
    obtain ⟨c, hc⟩ := code_closing (α := α).nonempty
    exact ⟨⟨c, .inl hc⟩, fun hnil => hnil.elim code_closing.nil_notMem hbranch.nil_notMem⟩
  unfold otherwise
  split
  · rename_i closing hclosing
    obtain ⟨c, hts, hc⟩ := reads_expect.1 ⟨closing.last, hclosing⟩
    refine ((obeys_expect code_closing).map fun _ => f none).of_head code_closing.toProper hproper ?_
    rw [hts]
    rintro _ ⟨⟩ us
    exact (or_iff_left (open_expression.mul code_expression.nil_notMem c us
      (Token.Kind.shape_eq_rightBracket.1 hc))).symm
  · rename_i failure hfailure
    have hother := (hitem (some last) ts hb).map fun branch => some branch.value
    refine (hother.bind code_expression code_closing.nonempty
      fun other _ => (obeys_expect code_closing).map fun _ => f other.value).of_head hbranch hproper ?_
    rintro t ht us
    refine (or_iff_right ?_).symm
    rintro ⟨c, heq, hc⟩
    cases heq
    cases ts with
    | nil => cases ht
    | cons _ ts =>
      cases ht
      unfold expect at hfailure
      dsimp only at hfailure
      rw [if_pos hc] at hfailure
      cases hfailure

theorem obeys_lambda {k : Nat} {word : Token α} {ts : List (Token α)} (hb : ts.length ≤ bound) (hk : ts.length ≤ k) :
    Obeys (some word) (words (.form .lambda) * one .rightBracket) ts (form item k .lambda word ts) := by
  rw [words_lambda, mul_assoc, closed_expression]
  unfold form
  refine (obeys_params hk).bind code_params (proper_closed _).nonempty fun head hhead => ?_
  exact (obeys_items hitem (by omega) (by omega)).map _

theorem obeys_define {k : Nat} {word : Token α} {ts : List (Token α)} (hb : ts.length ≤ bound) :
    Obeys (some word) (words (.form .define) * one .rightBracket) ts (form item k .define word ts) := by
  rw [words_define, mul_assoc]
  exact (obeys_nameAndValue hitem hb).map fun rest => Expr.define rest.value.1 rest.value.2

theorem obeys_assign {k : Nat} {word : Token α} {ts : List (Token α)} (hb : ts.length ≤ bound) :
    Obeys (some word) (words (.form .assign) * one .rightBracket) ts (form item k .assign word ts) := by
  rw [words_assign, mul_assoc]
  exact (obeys_nameAndValue hitem hb).map fun rest => Expr.assign rest.value.1 rest.value.2

theorem obeys_cond {k : Nat} {word : Token α} {ts : List (Token α)} (hb : ts.length ≤ bound) :
    Obeys (some word) (words (.form .cond) * one .rightBracket) ts (form item k .cond word ts) := by
  have hend : ∃ us, us ∈ (1 + words (α := α) .expression) * one .rightBracket := by
    obtain ⟨c, hc⟩ := code_closing (α := α).nonempty
    exact ⟨_, Language.append_mem_mul (.inl Language.nil_mem_one) hc⟩
  rw [words_cond, mul_assoc, mul_assoc]
  unfold form
  refine (hitem _ ts hb).bind code_expression (code_expression.toProper.mul hend).nonempty fun test htest => ?_
  refine (hitem _ _ (by omega)).bind code_expression hend fun chosen hchosen => ?_
  exact obeys_otherwise hitem (by omega) fun other => .cond test.value chosen.value other

theorem obeys_letIn {k : Nat} {word : Token α} {ts : List (Token α)} (hb : ts.length ≤ bound) (hk : ts.length ≤ k) :
    Obeys (some word) (words (.form .letIn) * one .rightBracket) ts (form item k .letIn word ts) := by
  have hbindings := code_binding.closed (open_binding (α := α))
  rw [words_letIn, mul_assoc, mul_assoc, mul_assoc, closed_expression, ← mul_assoc (words .bindings), closed_binding]
  unfold form
  refine (obeys_expect code_opening).bind code_opening ?_ fun opening hopening => ?_
  · exact (hbindings.toProper.mul (proper_closed _).nonempty).nonempty
  refine (obeys_bindings hitem (by omega) (by omega)).bind hbindings (proper_closed _).nonempty fun pairs hpairs => ?_
  exact (obeys_items hitem (by omega) (by omega)).map _

theorem obeys_quote {k : Nat} {word : Token α} {ts : List (Token α)} (hb : ts.length ≤ bound) (hk : ts.length ≤ k) :
    Obeys (some word) (words (.form .quote) * one .rightBracket) ts (form item k .quote word ts) := by
  rw [words_quote]
  unfold form
  refine (obeys_datum hitem hb hk).bind code_datum code_closing.nonempty fun quoted _ => ?_
  exact (obeys_expect code_closing).map _

theorem obeys_form {k : Nat} (keyword : Keyword) {word : Token α} {ts : List (Token α)} (hb : ts.length ≤ bound)
    (hk : ts.length ≤ k) :
    Obeys (some word) (words (.form keyword) * one .rightBracket) ts (form item k keyword word ts) := by
  cases keyword with
  | lambda => exact obeys_lambda hitem hb hk
  | define => exact obeys_define hitem hb
  | assign => exact obeys_assign hitem hb
  | cond => exact obeys_cond hitem hb
  | letIn => exact obeys_letIn hitem hb hk
  | quote => exact obeys_quote hitem hb hk

theorem obeys_callRest {k : Nat} {prev : Option (Token α)} {ts : List (Token α)} (hb : ts.length ≤ bound)
    (hk : ts.length ≤ k) :
    Obeys prev (words .expression * closed (words .expression)) ts (callRest item k ts) := by
  refine (hitem prev ts hb).bind code_expression (proper_closed _).nonempty fun callee hcallee => ?_
  exact (obeys_items hitem (by omega) (by omega)).map _

theorem obeys_bracketed {k : Nat} {prev : Option (Token α)} {ts : List (Token α)} (hb : ts.length ≤ bound)
    (hk : ts.length ≤ k) : Obeys prev (words .inside * one .rightBracket) ts (bracketed item k ts) := by
  have hcall := code_expression.toProper.mul (proper_closed (words (α := α) .expression)).nonempty
  cases ts with
  | nil => exact (obeys_callRest hitem hb hk).of_head hcall proper_inside nofun
  | cons t ts =>
    unfold bracketed
    dsimp only
    by_cases hclosing : t.kind.shape = .rightBracket
    · rw [if_pos hclosing]
      have hkind := Token.Kind.shape_eq_rightBracket.1 hclosing
      have hword : keyword? t = none := if_neg (by rw [hclosing]; nofun)
      refine .cons proper_inside.nil_notMem (fun us => ?_) .done
      rw [cons_mem_inside]
      simp [hkind, hword, open_expression.mul code_expression.nil_notMem t us hkind, Language.mem_one]
    rw [if_neg hclosing]
    have hkind := mt Token.Kind.shape_eq_rightBracket.2 hclosing
    split
    · rename_i keyword hword
      refine .cons proper_inside.nil_notMem (fun us => ?_)
        (obeys_form hitem keyword (Nat.le_of_succ_le hb) (Nat.le_of_succ_le hk))
      rw [cons_mem_inside]
      simp [hkind, hword]
    · rename_i hword
      refine (obeys_callRest hitem hb hk).of_head hcall proper_inside ?_
      rintro _ ⟨⟩ us
      rw [cons_mem_inside]
      simp [hkind, hword]

end Bracketed

/-! ## Expressions and programs -/

/-- **The reader of expressions stops where no expression goes on**, and not before. -/
theorem obeys_expression (bound n : Nat) : ObeysExpressions (expression (α := α) bound n) bound := by
  have hnil := (code_expression (α := α)).nil_notMem
  induction n with
  | zero =>
    intro prev ts _
    refine ⟨nofun, fun f hf hcause => ?_⟩
    cases hf
    exact absurd rfl hcause
  | succ n ih =>
    rintro prev (_ | ⟨t, ts⟩) hb
    · exact .stuck code_expression.toProper nofun nofun
    have hle := Nat.le_of_succ_le hb
    -- A token that begins no expression, and one that is an expression.
    have hstuck (hno : ∀ us, t :: us ∉ words .expression) :
        Obeys (β := Expr α) prev (words .expression) (t :: ts) (.error ⟨.unexpected, t :: ts⟩) := by
      refine .stuck code_expression.toProper ?_ nofun
      rintro _ ⟨⟩
      exact hno
    have hatom {e : Expr α} (hone : ∀ us, t :: us ∈ words .expression ↔ us = []) :
        Obeys prev (words .expression) (t :: ts) (.ok ⟨e, t, ts⟩) := .cons hnil hone .done
    unfold expression
    dsimp only
    cases hkind : t.kind with
    | leftBracket =>
      refine .cons hnil (fun us => ?_) (obeys_bracketed ih hle hle)
      simp [cons_mem_expression, hkind, Token.Kind.literal?]
    | quote =>
      refine .cons hnil (fun us => ?_) (obeys_datum ih hle hle)
      simp [cons_mem_expression, hkind, Token.Kind.literal?]
    | symbol | number | boolean | string =>
      refine hatom fun us => ?_
      simp [cons_mem_expression, hkind, Token.Kind.literal?]
    | rightBracket | quasiquote | unquote | unquoteSplicing | eof =>
      refine hstuck fun us => ?_
      simp [cons_mem_expression, hkind, Token.Kind.literal?]

/-- Where the reading of a program fails, what was read begins one, but no program goes on with the next token. -/
theorem programFrom_error {item : Rule α (Expr α)} {bound k : Nat} (hitem : ObeysExpressions item bound)
    {ts : List (Token α)} {done : List (Expr α)} (hb : ts.length ≤ bound) (hk : ts.length ≤ k) {failure : Failure α}
    (hfails : programFrom item done k ts = .error failure) (hcause : failure.cause ≠ .nestingTooDeep) :
    ∃ us, ts = us ++ failure.unread ∧ (∃ more, us ++ more ∈ words .expressions) ∧
      (∀ t ∈ failure.unread.head?, ∀ more, us ++ t :: more ∉ words .expressions) ∧
      ∀ last wanted, failure.cause = .expected last wanted → us.getLast? = some last := by
  rw [words_expressions]
  have hnil := (code_expression (α := α)).nil_notMem
  induction k generalizing ts done with
  | zero =>
    obtain rfl := List.length_eq_zero_iff.1 (Nat.le_zero.1 hk)
    unfold programFrom at hfails
    cases hfails
  | succ k ih =>
    cases ts with
    | nil =>
      unfold programFrom at hfails
      cases hfails
    | cons t ts =>
      unfold programFrom at hfails
      split at hfails
      · rename_i next hnext
        obtain ⟨vs, hvs, hts, -⟩ := (hitem none _ hb).ok next hnext
        have hlt : next.unread.length < (t :: ts).length := by
          have hpos := List.length_pos_iff.2 fun hempty => hnil (hempty ▸ hvs)
          rw [hts, List.length_append]
          omega
        have hlt' : next.unread.length ≤ k := Nat.le_of_lt_succ (hlt.trans_le hk)
        obtain ⟨us, hunread, ⟨more, hmore⟩, hdead, hlast⟩ := ih (hlt.le.trans hb) hlt' hfails
        refine ⟨vs ++ us, by rw [hts, hunread, List.append_assoc], ⟨more, ?_⟩, fun u hu more hmem => ?_, ?_⟩
        · rw [List.append_assoc]
          exact (code_expression.append_mem_kstar hvs).2 hmore
        · rw [List.append_assoc] at hmem
          exact hdead u hu more ((code_expression.append_mem_kstar hvs).1 hmem)
        · intro last wanted hf
          rw [List.getLast?_append, hlast last wanted hf]
          rfl
      · rename_i f hf
        cases hfails
        obtain ⟨us, hts, hstops, hlast⟩ := (hitem none _ hb).error _ hf hcause
        refine ⟨us, hts, ?_, fun u hu more hmem => ?_, fun last wanted hf => ?_⟩
        · obtain ⟨more, hmore⟩ := hstops.viable
          exact ⟨more, Set.mem_of_mem_of_subset hmore (le_kstar (a := words .expression))⟩
        · rcases mem_kstar_iff.1 hmem with hnil | ⟨v, hv, w, -, heq⟩
          · cases (List.append_eq_nil_iff.1 hnil).2
          · exact hstops.dead u hu v hv w more heq
        · rw [← hlast last wanted hf, Option.or_none]

/-- The tokens with a mark for the end of the input behind them, on the line of the last one, unless they have one
there. -/
def withEnd (tokens : List (Token α)) : List (Token α) :=
  match tokens.getLast? with
  | none => [.endOfInput 0]
  | some last => if last.kind.isEof then tokens else tokens ++ [.endOfInput last.line]

theorem exists_withEnd_eq (tokens : List (Token α)) : ∃ mark rest, withEnd tokens = beforeEof tokens ++ mark :: rest ∧
    mark.kind = .eof ∧ mark.line = endLine tokens := by
  unfold endLine beforeEof
  cases hfind : tokens.find? (·.kind.isEof) with
  | some mark =>
    obtain ⟨hmark, before, rest, rfl, hbefore⟩ := List.find?_eq_some_iff_append.1 hfind
    have htake : (before ++ mark :: rest).takeWhile (fun token => !token.kind.isEof) = before := by
      rw [List.takeWhile_append_of_pos hbefore, List.takeWhile_cons_of_neg (by simp [hmark]), List.append_nil]
    have hkind : mark.kind = .eof := by
      cases hkind : mark.kind <;> rw [hkind] at hmark <;> cases hmark
    rw [htake]
    unfold withEnd
    split
    · rename_i hnone
      simp at hnone
    · split
      · exact ⟨mark, rest, rfl, hkind, rfl⟩
      · exact ⟨mark, rest ++ [_], List.append_assoc _ _ _, hkind, rfl⟩
  | none =>
    rw [List.find?_eq_none] at hfind
    have htake : tokens.takeWhile (fun token => !token.kind.isEof) = tokens :=
      List.takeWhile_eq_self_iff.2 fun token htoken => by simpa using hfind token htoken
    rw [htake]
    unfold withEnd
    split
    · rename_i hnone
      rw [List.getLast?_eq_none_iff] at hnone
      subst hnone
      exact ⟨.endOfInput 0, [], rfl, rfl, rfl⟩
    · rename_i last hlast
      rw [if_neg (hfind last (List.mem_of_getLast? hlast)), hlast]
      exact ⟨.endOfInput last.line, [], rfl, rfl, rfl⟩

/-- The line of the report is that of the first token that was not read, or of the last one that was. -/
theorem line_toError {failure : Failure α} {read : List (Token α)} {mark : Token α} {endLine : Int}
    (hcause : failure.cause ≠ .nestingTooDeep) (hmark : mark.line = endLine)
    (hlast : ∀ last wanted, failure.cause = .expected last wanted → read.getLast? = some last) :
    (failure.toError endLine).line = (failure.unread.head?.getD mark).line ∨
      ∃ earlier last, read = earlier ++ [last] ∧ (failure.toError endLine).line = last.line := by
  have hline : (failure.unread.head?.map (·.line)).getD endLine = (failure.unread.head?.getD mark).line := by
    cases failure.unread with
    | nil => exact hmark.symm
    | cons t unread => rfl
  unfold Failure.toError
  cases hf : failure.cause with
  | unexpected => exact .inl hline
  | unclosed => exact .inl hline
  | expected last wanted =>
    obtain ⟨earlier, hread⟩ := List.getLast?_eq_some_iff.1 (hlast last wanted hf)
    exact .inr ⟨earlier, last, hread, rfl⟩
  | nestingTooDeep => exact absurd hf hcause

/-- **The parser stops at the first token with which no program goes on.** Where it fails, within the nesting limit, the
tokens that were read are the beginning of a program, but with the next token they are not. That token is the mark for
the end exactly if the whole input is the beginning of a longer program. The one error that is reported has the line of
the next token or of the one before it. -/
theorem parse_stops {nesting : Nat} {tokens : List (Token α)} (hfits : NestsWithin nesting tokens)
    (hfails : (parse nesting tokens).2 ≠ []) : ∃ failure read next rest,
      program nesting (beforeEof tokens) = .error failure ∧ beforeEof tokens = read ++ failure.unread ∧
      withEnd tokens = read ++ next :: rest ∧
      (∃ more es, Program (read ++ more) es) ∧
      (next.kind ≠ .eof → ∀ more es, ¬Program (read ++ next :: more) es) ∧
      (next.kind = .eof → read = beforeEof tokens) ∧
      (next.kind = .eof ↔ ∃ more es, more ≠ [] ∧ Program (beforeEof tokens ++ more) es) ∧
      ∃ e, parse nesting tokens = ([], [e]) ∧
        (e.line = next.line ∨ ∃ earlier last, read = earlier ++ [last] ∧ e.line = last.line) := by
  cases hprogram : program nesting (beforeEof tokens) with
  | ok es => exact absurd (congrArg Prod.snd (parse_eq_nil_iff.2 hprogram)) hfails
  | error failure =>
    have hcause : failure.cause ≠ .nestingTooDeep := by
      intro hdeep
      obtain ⟨cause, unread⟩ := failure
      cases hdeep
      exact hfits.program_ne unread hprogram
    have hparse : parse nesting tokens = ([], [failure.toError (endLine tokens)]) := by
      unfold parse ofTokens
      rw [hprogram]
    obtain ⟨read, hread, ⟨more, hmore⟩, hdead, hlast⟩ :=
      programFrom_error (obeys_expression _ nesting) (Nat.le_refl _) (Nat.le_refl _) hprogram hcause
    obtain ⟨mark, rest, hend, hmark, hline⟩ := exists_withEnd_eq tokens
    rw [hread, List.append_assoc] at hend
    have hreport := line_toError hcause hline hlast
    obtain ⟨es, hes⟩ := program_iff.2 hmore
    have hread' : read ++ failure.unread = beforeEof tokens := hread.symm
    cases hunread : failure.unread with
    | nil =>
      rw [hunread, List.append_nil] at hread'
      subst hread'
      have hne : more ≠ [] := by
        rintro rfl
        rw [List.append_nil] at hes
        rw [hfits.program_eq_ok hes] at hprogram
        cases hprogram
      refine ⟨failure, _, mark, rest, rfl, by rw [hunread, List.append_nil], ?_, ⟨more, es, hes⟩,
        fun h => absurd hmark h, fun _ => rfl, iff_of_true hmark ⟨more, es, hne, hes⟩, _, hparse, ?_⟩
      · rw [hunread] at hend
        exact hend
      · rw [hunread] at hreport
        exact hreport
    | cons t unread =>
      have ht : t.kind ≠ .eof := by
        have hmem : t ∈ beforeEof tokens := by
          rw [hread, hunread]
          exact List.mem_append_right _ List.mem_cons_self
        intro hkind
        have hbefore := List.mem_takeWhile_imp hmem
        rw [hkind] at hbefore
        cases hbefore
      have hdead' : ∀ more es, ¬Program (read ++ t :: more) es := fun more es h =>
        hdead t (by rw [hunread]; rfl) more (program_iff.1 ⟨es, h⟩)
      refine ⟨failure, read, t, unread ++ mark :: rest, rfl, by rw [hread, hunread], ?_, ⟨more, es, hes⟩,
        fun _ => hdead', fun h => absurd h ht, iff_of_false ht ?_, _, hparse, ?_⟩
      · rw [hunread] at hend
        exact hend
      · rintro ⟨more, es, -, h⟩
        rw [hread, hunread, List.append_assoc] at h
        exact hdead' _ es h
      · rw [hunread] at hreport
        exact hreport

/-- The tokens of `(let ((x 'y)` and, in the next line, `z) eof )` -/
def bareBindingExample : List (Token Unit) :=
  let token (line : Int) (kind : Token.Kind Unit) (lexeme : String) : Token Unit := ⟨kind, 0, lexeme, line⟩
  [token 0 .leftBracket "(", token 0 .symbol "let", token 0 .leftBracket "(", token 0 .leftBracket "(",
    token 0 .symbol "x", token 0 .quote "'", token 0 .symbol "y", token 0 .rightBracket ")", token 1 .symbol "z",
    token 1 .rightBracket ")", .endOfInput 1, token 1 .rightBracket ")"]

theorem parse_stops_bareBinding :
    NestsWithin 3 bareBindingExample ∧
      parse 3 bareBindingExample = ([], [⟨0, .expected .rightBracket .leftBracket⟩]) ∧
      (∃ more es, Program (bareBindingExample.take 8 ++ more) es) ∧
      ∀ more es, ¬Program (bareBindingExample.take 9 ++ more) es := by
  have hparse : parse 3 bareBindingExample = ([], [⟨0, .expected .rightBracket .leftBracket⟩]) := rfl
  have hfits : NestsWithin 3 bareBindingExample := by
    intro line hmem
    rw [hparse] at hmem
    cases hmem with
    | tail _ hmem => cases hmem
  have hfails : (parse 3 bareBindingExample).2 ≠ [] := by
    rw [hparse]
    nofun
  obtain ⟨failure, read, next, rest, hprogram, hread, hend, hviable, hdead, -⟩ := parse_stops hfits hfails
  have hfailure : failure.unread = (beforeEof bareBindingExample).drop 8 := by
    cases hprogram
    rfl
  have htake : beforeEof bareBindingExample = bareBindingExample.take 8 ++ (beforeEof bareBindingExample).drop 8 := rfl
  rw [htake, hfailure] at hread
  obtain rfl := List.append_cancel_right hread
  cases hend
  refine ⟨hfits, hparse, hviable, fun more es => ?_⟩
  exact hdead nofun more es

end Expr
end MiniScheme
