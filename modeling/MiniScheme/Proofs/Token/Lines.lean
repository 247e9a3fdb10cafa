import Mathlib.Algebra.Ring.Nat
import MiniScheme.Proofs.Token.Tokenisation

/-!
# The lines of tokens

The line of a token is meant to be the number of line breaks before it. The scanner counts those in gaps only, so that
what a string spans is missing from every line reported after it.

* `spanned` — the line breaks inside the lexemes of some tokens.
* `Tokenised.line_token`, `Tokenised.line_rest` — a reported line and what earlier lexemes span make up the line breaks
  before the place it is reported for.
* `LinesRight` — every line that is reported for a text is the right one.
* `scan_linesRight_iff` — this is so exactly if no string of the text spans lines.
-/

namespace MiniScheme.Token

variable {kind : Kind Atom} {lexeme after text rest before : List Char} {tokens : List (Token Atom)}
  {position line last : Nat}

/-- The line breaks inside the lexemes. -/
def spanned (tokens : List (Token Atom)) : Nat := (tokens.map fun t => t.lexeme.toList.count '\n').sum

@[simp] theorem spanned_nil : spanned [] = 0 := rfl

@[simp] theorem spanned_cons (t : Token Atom) (ts : List (Token Atom)) :
    spanned (t :: ts) = t.lexeme.toList.count '\n' + spanned ts := rfl

@[simp] theorem spanned_append (ts us : List (Token Atom)) : spanned (ts ++ us) = spanned ts + spanned us := by
  simp [spanned]

/-- A string that goes on in another line. -/
def SpansLines (t : Token Atom) : Prop := ∃ s, t.kind = .string (.string s) ∧ '\n' ∈ s.toList

/-! ## Lexemes that span lines -/

/-- Only strings span lines. -/
theorem Lexeme.newline_mem_iff (h : Lexeme kind lexeme after) :
    '\n' ∈ lexeme ↔ ∃ s, kind = .string (.string s) ∧ '\n' ∈ s.toList := by
  have hmark {mark : Char} {body : List Char} (hmark : OpensString mark body) : mark ≠ '\n' := by
    rintro rfl
    rcases hmark with hmark | ⟨hmark, -⟩ <;> cases hmark
  cases h with
  | boolean b => cases b <;> simp
  | @number c cs _ hc hcs =>
    have hhead : '\n' ≠ c := by
      rintro rfl
      cases hc
    have hrest : '\n' ∉ cs := fun hmem => absurd (hcs _ hmem) (by decide)
    simp [hhead, hrest]
  | @symbol c cs _ hc hcs =>
    have hnot : '\n' ∉ c :: cs := fun hmem => absurd (hcs _ hmem) (by decide)
    simp [hnot]
  | string hopens hbody => simp [(hmark hopens).symm]
  | openString hopens hbody => simp [(hmark hopens).symm]
  | _ => simp

/-- What the tokens of a text span is nothing, unless one of them is a string that spans lines. -/
theorem Tokenised.spanned_eq_zero_iff (h : Tokenised position line text tokens last rest) :
    spanned tokens = 0 ↔ ∀ t ∈ tokens, ¬t.SpansLines := by
  induction h with
  | stop => simp
  | token hgap hlexeme h ih =>
    rw [spanned_cons, Nat.add_eq_zero_iff, ih, List.forall_mem_cons, String.toList_ofList, List.count_eq_zero,
      hlexeme.lexeme.newline_mem_iff]
    rfl

/-! ## Reported lines -/

/-- **The line of a token** and what the tokens before it span make up the line breaks before its start. -/
theorem Tokenised.line_token (h : Tokenised position line text tokens last rest) {earlier later : List (Token Atom)}
    {t : Token Atom} (htokens : tokens = earlier ++ t :: later) :
    ∃ front, front <+: text ∧ t.start = position + front.length ∧
      t.line + spanned earlier = line + front.count '\n' := by
  induction h generalizing earlier with
  | stop => simp at htokens
  | @token position line last gap lexeme text rest kind tokens hgap hlexeme h ih =>
    cases earlier with
    | nil =>
      obtain ⟨rfl, -⟩ := List.cons.inj htokens
      exact ⟨gap, List.prefix_append .., by simp, by simp⟩
    | cons t' earlier =>
      obtain ⟨rfl, hrest⟩ := List.cons.inj htokens
      obtain ⟨front, hfront, hstart, hline⟩ := ih hrest
      refine ⟨gap ++ (lexeme ++ front), ?_, ?_, ?_⟩
      · rwa [List.prefix_append_right_inj, List.prefix_append_right_inj]
      · rw [hstart, List.length_append, List.length_append]
        omega
      · rw [spanned_cons, String.toList_ofList, List.count_append, List.count_append]
        omega

/-- The rest stands at the end of the text. -/
theorem Tokenised.exists_front (h : Tokenised position line text tokens last rest) : ∃ front, text = front ++ rest := by
  induction h with
  | @stop _ _ gap => exact ⟨gap, rfl⟩
  | @token _ _ _ gap lexeme _ _ _ _ _ _ _ ih =>
    obtain ⟨front, rfl⟩ := ih
    exact ⟨gap ++ (lexeme ++ front), by simp⟩

/-- **The line that the rest is at** and what the tokens span make up the line breaks before it. -/
theorem Tokenised.line_rest (h : Tokenised position line text tokens last rest) (hsplit : text = before ++ rest) :
    last + spanned tokens = line + before.count '\n' := by
  induction h generalizing before with
  | stop =>
    rw [← List.append_cancel_right hsplit, spanned_nil]
    rfl
  | @token position line last gap lexeme text rest kind tokens hgap hlexeme h ih =>
    obtain ⟨front, rfl⟩ := h.exists_front
    have hbefore : before = gap ++ (lexeme ++ front) := by
      refine List.append_cancel_right (hsplit.symm.trans ?_)
      simp
    have hline := ih rfl
    rw [hbefore, spanned_cons, String.toList_ofList, List.count_append, List.count_append]
    omega

/-! ## The lines of a scan -/

/-- The line breaks in the text before the place of a token. The mark of the end stands after the whole text. -/
def breaksBefore (source : String) (t : Token Atom) : Nat :=
  if t.kind.isEof then source.toList.count '\n' else (source.toList.take t.start.toNat).count '\n'

/-- The mark of the end spans nothing. -/
theorem spanned_upTo (tokens : List (Token Atom)) (last : Nat) (rest : List Char) :
    spanned (Scan.upTo tokens last rest).tokens = spanned tokens := by
  cases rest with
  | nil => exact spanned_append tokens [endOfInput last]
  | cons => rfl

theorem scan_spanned_eq_zero_iff (source : String) :
    spanned (scan source).tokens = 0 ↔ ∀ t ∈ (scan source).tokens, ¬t.SpansLines := by
  obtain ⟨tokens, last, rest, htokenised, hscan⟩ := scan_eq_upTo source
  rw [hscan, spanned_upTo, htokenised.spanned_eq_zero_iff]
  cases rest with
  | nil =>
    have hmark : ¬(endOfInput last : Token Atom).SpansLines := by
      rintro ⟨s, hs, -⟩
      cases hs
    exact ⟨fun h => List.forall_mem_append.2 ⟨h, List.forall_mem_singleton.2 hmark⟩,
      fun h => (List.forall_mem_append.1 h).1⟩
  | cons => rfl

/-- Every line that is reported for a text is the number of line breaks before the place it is for: that of a token, or
the character that nothing starts with. -/
structure LinesRight (source : String) : Prop where
  token : ∀ t ∈ (scan source).tokens, t.line = breaksBefore source t
  error : ∀ e, (scan source).error = some e → ∀ tokens last before rest,
    Tokenised 0 0 source.toList tokens last rest → source.toList = before ++ rest → e.line = before.count '\n'

/-- The line of a token of a scan is short of what the tokens before it span. -/
theorem scan_line_add_spanned (source : String) {earlier later : List (Token Atom)} {t : Token Atom}
    (htokens : (scan source).tokens = earlier ++ t :: later) : t.line + spanned earlier = breaksBefore source t := by
  obtain ⟨tokens, last, rest, htokenised, hscan⟩ := scan_eq_upTo source
  have hinside {later : List (Token Atom)} (hsplit : tokens = earlier ++ t :: later) :
      t.line + spanned earlier = breaksBefore source t := by
    obtain ⟨front, ⟨more, hmore⟩, hstart, hline⟩ := htokenised.line_token hsplit
    have htake : source.toList.take t.start.toNat = front := by
      rw [hstart, ← hmore]
      simp
    unfold breaksBefore
    rw [htokenised.isEof_eq t (by simp [hsplit]), if_neg Bool.false_ne_true, htake]
    omega
  rw [hscan] at htokens
  cases rest with
  | cons c more => exact hinside htokens
  | nil =>
    have hends : tokens ++ [endOfInput (last : Nat)] = earlier ++ t :: later := htokens
    rcases List.eq_nil_or_concat later with rfl | ⟨later, t', rfl⟩
    · obtain ⟨rfl, hlast⟩ := List.append_inj' hends rfl
      obtain ⟨rfl, -⟩ := List.cons.inj hlast
      have hline := htokenised.line_rest (List.append_nil _).symm
      show (last : Int) + _ = (source.toList.count '\n' : Nat)
      omega
    · rw [List.concat_eq_append, ← List.cons_append, ← List.append_assoc] at hends
      exact hinside (List.append_inj' hends rfl).1

/-- The line of an error is short of what the tokens before it span. -/
theorem scan_error_line_add_spanned (source : String) {e : SyntaxError} (herror : (scan source).error = some e)
    (htokenised : Tokenised 0 0 source.toList tokens last rest) (hsplit : source.toList = before ++ rest) :
    e.line + spanned tokens = before.count '\n' := by
  obtain ⟨_, last, rest, htokenised', hscan⟩ := scan_eq_upTo source
  obtain ⟨rfl, rfl, rfl⟩ := htokenised'.unique htokenised
  rw [hscan] at herror
  cases rest with
  | nil => cases herror
  | cons c more =>
    cases herror
    have hline := htokenised.line_rest hsplit
    show (last : Int) + _ = _
    omega

/-- **Lines are right but for strings that span lines.** What the strings before a place span is missing from the line
that is reported for it, be it a token, the end of the text or a character that nothing starts with. So the lines of a
text are right exactly if none of its strings spans lines. -/
theorem scan_linesRight_iff (source : String) :
    (∀ earlier t later, (scan source).tokens = earlier ++ t :: later →
      t.line + spanned earlier = breaksBefore source t) ∧
    (∀ e, (scan source).error = some e → ∀ tokens last before rest, Tokenised 0 0 source.toList tokens last rest →
      source.toList = before ++ rest → e.line + spanned tokens = before.count '\n') ∧
    (LinesRight source ↔ ∀ t ∈ (scan source).tokens, ¬t.SpansLines) := by
  refine ⟨fun _ _ _ => scan_line_add_spanned source, fun e herror tokens last before rest =>
    scan_error_line_add_spanned source herror, ?_⟩
  obtain ⟨tokens, last, rest, htokenised, hscan⟩ := scan_eq_upTo source
  obtain ⟨before, hbefore⟩ := htokenised.exists_front
  have hspanned : spanned (scan source).tokens = spanned tokens := by rw [hscan, spanned_upTo]
  rw [← scan_spanned_eq_zero_iff, hspanned]
  constructor
  -- What comes after all tokens has a line too: that of the mark of the end or that of the error.
  · intro hright
    cases rest with
    | nil =>
      have hsplit : (scan source).tokens = tokens ++ [endOfInput (last : Nat)] := by
        rw [hscan]
        rfl
      have hline := scan_line_add_spanned source hsplit
      rw [hright.token _ (by simp [hsplit])] at hline
      omega
    | cons c more =>
      have herror : (scan source).error = some ⟨last, .unknownCharacter c⟩ := by
        rw [hscan]
        rfl
      have hline := scan_error_line_add_spanned source herror htokenised hbefore
      rw [hright.error _ herror _ _ _ _ htokenised hbefore] at hline
      omega
  · intro hnone
    refine ⟨fun t ht => ?_, fun e herror tokens' last' before' rest' htokenised' hsplit => ?_⟩
    · obtain ⟨earlier, later, hsplit⟩ := List.append_of_mem ht
      have hline := scan_line_add_spanned source hsplit
      rw [hsplit, spanned_append] at hspanned
      omega
    · have hline := scan_error_line_add_spanned source herror htokenised' hsplit
      obtain ⟨rfl, -, -⟩ := htokenised'.unique htokenised
      omega

/-- `"` and a line break and `" x`: the second token stands in the second line. -/
theorem scan_linesRight_stringOverLines : ¬LinesRight "\x22\n\x22 x" := by
  intro h
  have hx := h.token ⟨.symbol, 4, "x", 0⟩ (by decide +kernel)
  revert hx
  decide +kernel

end MiniScheme.Token
