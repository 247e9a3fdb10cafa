import MiniScheme.Proofs.Expr.Recognition
import MiniScheme.Proofs.Expr.Widening

/-!
# Parsing

The parser against the grammar. Reading an expression never looks past its end, so that no two expressions can begin
with the same tokens and go on differently; and whatever the nesting limit does not stop is decided by the grammar
alone.

* `Spells.split_unique` — the tokens of an expression are split off in one way.
* `Program.unique` — a program has one list of trees.
* `parse_iff_program` — the parser accepts the programs of the grammar, and reports one error for all else.
-/

namespace MiniScheme
namespace Expr

variable {α : Type}

/-- **An expression is split off in one way.** Whatever follows it, no other expression starts the same tokens. -/
theorem Spells.split_unique {n m : Nat} {us vs r s : List (Token α)} {e f : Expr α} (h : Spells n .expression us e)
    (h' : Spells m .expression vs f) (heq : us ++ r = vs ++ s) : us = vs ∧ e = f ∧ r = s := by
  have hitem := readsExpressions_expression (α := α) (max n m) (us ++ r).length
  obtain ⟨last, hus⟩ := (hitem _ e r (Nat.le_refl _)).2 ⟨us, rfl, h.mono (Nat.le_max_left n m)⟩
  obtain ⟨last', hvs⟩ := (hitem _ f s (Nat.le_refl _)).2 ⟨vs, heq, h'.mono (Nat.le_max_right n m)⟩
  rw [hus] at hvs
  cases hvs
  exact ⟨List.append_cancel_right heq, rfl, rfl⟩

/-- No expression goes on where another one ends. -/
theorem Spells.eq_of_prefix {n m : Nat} {us vs : List (Token α)} {e f : Expr α} (h : Spells n .expression us e)
    (h' : Spells m .expression vs f) (hbegins : us <+: vs) : us = vs := by
  obtain ⟨r, hr⟩ := hbegins
  have hsplit := h.split_unique h' (s := []) (hr.trans (List.append_nil vs).symm)
  exact hsplit.1

/-- A program has one list of trees. -/
theorem Program.unique {ts : List (Token α)} {es fs : List (Expr α)} (h : Program ts es) (h' : Program ts fs) :
    es = fs := by
  obtain ⟨n, hn⟩ := h
  obtain ⟨m, hm⟩ := h'
  have hes := program_eq_ok_iff.2 (hn.mono (Nat.le_max_left n m))
  rw [program_eq_ok_iff.2 (hm.mono (Nat.le_max_right n m))] at hes
  cases hes
  rfl

/-- Programs one after the other are a program. -/
theorem program_append {nesting : Nat} {us vs : List (Token α)} {es fs : List (Expr α)}
    (hus : program nesting us = .ok es) (hvs : program nesting vs = .ok fs) :
    program nesting (us ++ vs) = .ok (es ++ fs) :=
  program_eq_ok_iff.2 ((program_eq_ok_iff.1 hus).expressions_append (program_eq_ok_iff.1 hvs))

/-- The nesting limit does not stop the reading of these tokens. -/
def NestsWithin (nesting : Nat) (tokens : List (Token α)) : Prop :=
  ∀ line, ⟨line, .nestingTooDeep⟩ ∉ (parse nesting tokens).2

theorem parse_eq_nil_iff {nesting : Nat} {tokens : List (Token α)} {es : List (Expr α)} :
    parse nesting tokens = (es, []) ↔ program nesting (beforeEof tokens) = .ok es := by
  unfold parse ofTokens
  cases program nesting (beforeEof tokens) with
  | ok fs =>
    constructor
    · intro h
      cases h
      rfl
    · intro h
      cases h
      rfl
  | error failure =>
    constructor
    · intro h
      cases h
    · intro h
      cases h

theorem NestsWithin.program_ne {nesting : Nat} {tokens : List (Token α)} (h : NestsWithin nesting tokens)
    (unread : List (Token α)) : program nesting (beforeEof tokens) ≠ .error ⟨.nestingTooDeep, unread⟩ := by
  intro hdeep
  unfold NestsWithin parse ofTokens at h
  rw [hdeep] at h
  exact h _ List.mem_cons_self

/-- Whatever the nesting limit does not stop is accepted if it is a program at all. -/
theorem NestsWithin.program_eq_ok {nesting : Nat} {tokens : List (Token α)} {es : List (Expr α)}
    (h : NestsWithin nesting tokens) (hprogram : Program (beforeEof tokens) es) :
    program nesting (beforeEof tokens) = .ok es := by
  obtain ⟨n, hn⟩ := hprogram
  have hwide := program_eq_ok_iff.2 (hn.mono (Nat.le_max_left n nesting))
  rcases program_widens (Nat.le_max_right n nesting) (beforeEof tokens) with heq | ⟨unread, hdeep⟩
  · rw [heq, hwide]
  · exact absurd hdeep (h.program_ne unread)

/-- **Parsing is deciding the grammar.** On tokens that the nesting limit does not stop, the parser returns
expressions without an error exactly if the tokens before the first `eof` make up a program of these expressions. The
expressions of a program are unique, since each is split off in one way and none is the beginning of another. Tokens
that make up no program come to no expressions and one error. -/
theorem parse_iff_program {nesting : Nat} {tokens : List (Token α)} (hfits : NestsWithin nesting tokens) :
    (∀ es, parse nesting tokens = (es, []) ↔ Program (beforeEof tokens) es) ∧
      (∀ es fs, Program (beforeEof tokens) es → Program (beforeEof tokens) fs → es = fs) ∧
      (∀ n m (us vs r s : List (Token α)) e f, Spells n .expression us e → Spells m .expression vs f →
        us ++ r = vs ++ s → us = vs ∧ e = f ∧ r = s) ∧
      (∀ n m (us vs : List (Token α)) e f, Spells n .expression us e → Spells m .expression vs f →
        us <+: vs → us = vs) ∧
      ((¬∃ es, Program (beforeEof tokens) es) → ∃ e, parse nesting tokens = ([], [e])) := by
  refine ⟨fun es => ?_, fun es fs h h' => h.unique h', ?_, ?_, ?_⟩
  · rw [parse_eq_nil_iff]
    constructor
    · intro h
      exact ⟨nesting, program_eq_ok_iff.1 h⟩
    · intro h
      exact hfits.program_eq_ok h
  · intro n m us vs r s e f h h' heq
    exact h.split_unique h' heq
  · intro n m us vs e f h h' hbegins
    exact h.eq_of_prefix h' hbegins
  · intro hnone
    unfold parse ofTokens
    cases hprogram : program nesting (beforeEof tokens) with
    | ok es => exact absurd ⟨es, nesting, program_eq_ok_iff.1 hprogram⟩ hnone
    | error failure => exact ⟨failure.toError (endLine tokens), rfl⟩

/-- The tokens of `(if 'x '(if)) eof )` -/
def quotedKeywordExample : List (Token Unit) :=
  let token (kind : Token.Kind Unit) (lexeme : String) : Token Unit := ⟨kind, 0, lexeme, 0⟩
  [token .leftBracket "(", token .symbol "if", token .quote "'", token .symbol "x", token .quote "'",
    token .leftBracket "(", token .symbol "if", token .rightBracket ")", token .rightBracket ")", .endOfInput 0,
    token .rightBracket ")"]

theorem parse_iff_program_quotedKeyword :
    NestsWithin 3 quotedKeywordExample ∧
      Program (beforeEof quotedKeywordExample) [.cond (.symbol ⟨"x", 0, 0⟩) (.list [.symbol ⟨"if", 0, 0⟩]) none] := by
  have h : parse 3 quotedKeywordExample =
      ([.cond (.symbol ⟨"x", 0, 0⟩) (.list [.symbol ⟨"if", 0, 0⟩]) none], []) := rfl
  have hfits : NestsWithin 3 quotedKeywordExample := by
    intro line hmem
    rw [h] at hmem
    cases hmem
  exact ⟨hfits, ((parse_iff_program hfits).1 _).1 h⟩

end Expr
end MiniScheme
