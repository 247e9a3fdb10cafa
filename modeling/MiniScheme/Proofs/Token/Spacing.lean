import MiniScheme.Proofs.Expr.Places
import MiniScheme.Proofs.Token.Join
import MiniScheme.Proofs.Token.Tokenisation

/-!
# Texts of lexemes

The lexemes of a text with a blank between each two are a text of the same tokens. A blank ends every lexeme but a
string without its closing quote, and such a string is the last token of a text.

* `spaced tokens` — the lexemes of the tokens, with a blank between each two.
* `Lexeme.longest_blank` — before a blank, every lexeme is the longest.
* `Tokenised.exists_spaced` — how the lexemes of a text are tokenised.
* `scan_spaced` — the tokens of a text can be read off its lexemes.
-/

namespace MiniScheme.Token

variable {kind : Kind Atom} {c : Char} {cs lexeme after more text : List Char} {tokens : List (Token Atom)}
  {position line last : Nat}

/-- The lexemes of the tokens, with a blank between each two. -/
def spaced (tokens : List (Token Atom)) : String := String.intercalate " " (tokens.map (·.lexeme))

theorem toList_spaced_singleton (t : Token Atom) : (spaced [t]).toList = t.lexeme.toList := by
  simp [spaced]

theorem toList_spaced_cons_cons (t u : Token Atom) (ts : List (Token Atom)) :
    (spaced (t :: u :: ts)).toList = t.lexeme.toList ++ ' ' :: (spaced (u :: ts)).toList := by
  simp [spaced, String.toList_intercalate]

/-! ## Lexemes before a blank -/

/-- A blank ends the piece that a lexeme is. -/
theorem Lexeme.first_blank (h : Lexeme kind (c :: cs) (' ' :: more)) :
    Piece.first c (cs ++ ' ' :: more) = .token kind cs.length := by
  cases h with
  | leftBracket | rightBracket | quasiquote | quote | unquoteSplicing => rfl
  | unquote => exact Piece.first_unquote (by simp)
  | boolean b => exact Piece.first_boolean b _
  | number hc hcs => exact Piece.first_number hc hcs (stopsNumber_cons (by decide) more)
  | symbol hc hcs =>
    have hrun : (cs ++ ' ' :: more).takeWhile isSymbolChar = cs := by
      rw [List.takeWhile_append_of_pos fun d hd => hcs d (List.mem_cons_of_mem c hd),
        List.takeWhile_cons_of_neg (by decide), List.append_nil]
    rw [Piece.first_symbol hc (hcs c List.mem_cons_self), hrun]
  | @string _ body _ hmark hbody =>
    have hopens : OpensString c (body ++ '\x22' :: ' ' :: more) := hmark.append (by simp)
    rw [List.append_assoc, List.singleton_append, Piece.first_mark hopens, Piece.stringBody_closed hbody,
      List.length_append, List.length_singleton]

/-- **Before a blank, every lexeme is the longest.** -/
theorem Lexeme.longest_blank (h : Lexeme kind lexeme (' ' :: more)) : Longest kind lexeme (' ' :: more) := by
  cases lexeme with
  | nil => exact absurd rfl h.ne_nil
  | cons c cs => exact Piece.first_token_iff.1 h.first_blank

/-- A lexeme is one whatever follows it, unless it is an open string. -/
theorem Lexeme.congr_of_closed (h : Lexeme kind lexeme after) {position line : Int}
    (hclosed : isOpenString ⟨kind, position, String.ofList lexeme, line⟩ = false) (after' : List Char) :
    Lexeme kind lexeme after' := by
  cases after with
  | cons c after => exact h.congr (List.cons_ne_nil c after) after'
  | nil =>
    cases h with
    | openString hmark hbody => simp [isOpenString, Nat.add_comm] at hclosed
    | string hmark hbody => exact .string hmark hbody
    | number hc hcs => exact .number hc hcs
    | symbol hc hcs => exact .symbol hc hcs
    | _ => constructor

/-! ## Lexemes with blanks between them -/

/-- The text that stands after a blank is tokenised as it is without. -/
theorem Tokenised.blank (h : Tokenised (position + 1) line text tokens last []) :
    Tokenised position line (' ' :: text) tokens last [] := by
  cases h with
  | @stop _ _ gap _ hgap hrest =>
    have hstop : Tokenised position line (' ' :: gap ++ []) [] (line + (' ' :: gap).count '\n') [] :=
      .stop (.blank (by simp) hgap) hrest
    rwa [List.count_cons_of_ne (by decide)] at hstop
  | @token _ _ _ gap lexeme text rest kind tokens hgap hlexeme h =>
    have hposition : position + (' ' :: gap).length = position + 1 + gap.length := by
      rw [List.length_cons]
      omega
    have htoken := @Tokenised.token position line last (' ' :: gap) lexeme text [] kind tokens
      (.blank (by simp) hgap) hlexeme
    rw [hposition, List.count_cons_of_ne (by decide)] at htoken
    exact htoken h

/-- A text with tokens is not empty. -/
theorem Tokenised.ne_nil {t : Token Atom} {rest : List Char}
    (h : Tokenised position line text (t :: tokens) last rest) : text ≠ [] := by
  cases h with
  | token hgap hlexeme h => simp [hlexeme.lexeme.ne_nil]

/-- This may stand behind the lexemes: nothing or, unless the last token is an open string, a blank. -/
inductive EndsSpaced (tokens : List (Token Atom)) : List Char → Prop where
  | bare : EndsSpaced tokens []
  | blank (hclosed : ∀ t ∈ tokens.getLast?, t.isOpenString = false) : EndsSpaced tokens [' ']

theorem EndsSpaced.tokenised {tail : List Char} (h : EndsSpaced tokens tail) (position line : Nat) :
    Tokenised position line tail [] line [] := by
  cases h with
  | bare => exact .stop .nil (by simp)
  | blank => exact .stop (.blank (by simp) .nil) (by simp)

/-- **The lexemes of a text are tokenised as the text is**, but for the places. -/
theorem Tokenised.exists_spaced {rest : List Char} (h : Tokenised position line text tokens last rest)
    (hrest : rest = []) {tail : List Char} (htail : EndsSpaced tokens tail) (position' line' : Nat) :
    ∃ tokens', Tokenised position' line' ((spaced tokens).toList ++ tail) tokens' line' [] ∧
      tokens'.map Token.unplaced = tokens.map Token.unplaced := by
  induction h generalizing position' with
  | stop => exact ⟨[], htail.tokenised position' line', rfl⟩
  | @token position line last gap lexeme text rest kind ts hgap hlexeme h ih =>
    cases ts with
    | nil =>
      have hlongest : Longest kind lexeme tail := by
        cases htail with
        | bare =>
          by_cases htext : text = []
          · exact htext ▸ hlexeme
          · have hfront : Longest kind lexeme ([] ++ text) := hlexeme
            exact hfront.before htext
        | blank hclosed => exact (hlexeme.lexeme.congr_of_closed (hclosed _ rfl) _).longest_blank
      refine ⟨[⟨kind, position', String.ofList lexeme, line'⟩], ?_, rfl⟩
      rw [toList_spaced_singleton, String.toList_ofList]
      exact .token .nil hlongest (htail.tokenised _ line')
    | cons u us =>
      have htail : EndsSpaced (u :: us) tail := by
        cases htail with
        | bare => exact .bare
        | blank hclosed => exact .blank (by rwa [List.getLast?_cons_cons] at hclosed)
      obtain ⟨tokens', htokens', hsame⟩ := ih hrest htail (position' + lexeme.length + 1)
      have hlongest : Longest kind lexeme (' ' :: ((spaced (u :: us)).toList ++ tail)) :=
        (hlexeme.lexeme.congr h.ne_nil _).longest_blank
      refine ⟨⟨kind, position', String.ofList lexeme, line'⟩ :: tokens', ?_, congrArg (_ :: ·) hsame⟩
      rw [toList_spaced_cons_cons, String.toList_ofList, List.append_assoc, List.cons_append]
      exact .token .nil hlongest htokens'.blank

/-! ## The scan of a text of lexemes -/

/-- A text that is tokenised to its end can be scanned. -/
theorem scan_of_tokenised {source : String} (h : Tokenised 0 0 source.toList tokens last []) :
    scan source = ⟨tokens ++ [endOfInput (last : Nat)], none⟩ := by
  obtain ⟨tokens', last', rest', htokenised, hscan⟩ := scan_eq_upTo source
  obtain ⟨rfl, rfl, rfl⟩ := htokenised.unique h
  exact hscan

/-- Whatever may stand behind the lexemes of a text, they are scanned as the text is, but for the places. -/
theorem scan_of_spaced {source spacedSource : String} {tail : List Char}
    (h : Tokenised 0 0 source.toList tokens last []) (htail : EndsSpaced tokens tail)
    (hchars : spacedSource.toList = (spaced tokens).toList ++ tail) :
    (scan spacedSource).error = none ∧
      (scan spacedSource).tokens.map Token.unplaced = (scan source).tokens.map Token.unplaced := by
  obtain ⟨tokens', htokens', hsame⟩ := h.exists_spaced rfl htail 0 0
  rw [← hchars] at htokens'
  rw [scan_of_tokenised h, scan_of_tokenised htokens', List.map_append, List.map_append, hsame]
  exact ⟨rfl, rfl⟩

/-- The mark for the end adds a blank and no lexeme. -/
theorem toList_spaced_concat_endOfInput (tokens : List (Token Atom)) (hne : tokens ≠ []) (line : Int) :
    (spaced (tokens ++ [endOfInput line])).toList = (spaced tokens).toList ++ [' '] := by
  induction tokens with
  | nil => exact absurd rfl hne
  | cons t ts ih =>
    cases ts with
    | nil =>
      rw [List.singleton_append, toList_spaced_cons_cons, toList_spaced_singleton, toList_spaced_singleton]
      rfl
    | cons u us =>
      rw [List.cons_append, List.cons_append, toList_spaced_cons_cons, toList_spaced_cons_cons, ← List.cons_append,
        ih (List.cons_ne_nil u us), List.append_assoc, List.cons_append]

/-- **The tokens of a text can be read off its lexemes.** If a text can be scanned, so can its lexemes with a blank
between each two, to tokens of the same kinds, literals and lexemes in the same order. What else there is in the text is
white space and comments, or blanks that are left out between lexemes. With one more blank, for the empty lexeme at the
end of the input, the same holds of all texts that do not end inside a string. -/
theorem scan_spaced {source : String} (h : (scan source).error = none) :
    (scan (spaced (scan source).tokens.dropLast)).error = none ∧
      (scan (spaced (scan source).tokens.dropLast)).tokens.map Token.unplaced =
        (scan source).tokens.map Token.unplaced ∧
      ((scan source).endsOpen = false →
        (scan (spaced (scan source).tokens)).error = none ∧
          (scan (spaced (scan source).tokens)).tokens.map Token.unplaced =
            (scan source).tokens.map Token.unplaced) := by
  obtain ⟨tokens, last, rest, htokenised, hscan⟩ := scan_eq_upTo source
  cases rest with
  | cons c more =>
    rw [hscan] at h
    cases h
  | nil =>
    have hdropLast : (scan source).tokens.dropLast = tokens := by
      rw [hscan, Scan.upTo, List.dropLast_concat]
    rw [hdropLast]
    obtain ⟨herror, htokens⟩ := scan_of_spaced htokenised .bare (List.append_nil _).symm
    refine ⟨herror, htokens, fun hclosed => ?_⟩
    have hall : (scan source).tokens = tokens ++ [endOfInput (last : Nat)] := by rw [hscan, Scan.upTo]
    by_cases hne : tokens = []
    · have hchars : (spaced (scan source).tokens).toList = (spaced tokens).toList ++ [] := by
        rw [hall, hne]
        rfl
      exact scan_of_spaced htokenised .bare hchars
    · have hlast : ∀ t ∈ tokens.getLast?, t.isOpenString = false := by
        intro t ht
        unfold Scan.endsOpen at hclosed
        rwa [hdropLast, ht] at hclosed
      have hchars := toList_spaced_concat_endOfInput tokens hne last
      rw [← hall] at hchars
      exact scan_of_spaced htokenised (.blank hlast) hchars

/-- Tokens without blanks between them, also where a word seems to go on, a comment, and a string without its closing
quote. -/
def crowdedExample : String := "#true'a\x22;\x22#x\x22,@b;c\n#|"

theorem scan_spaced_crowded :
    (scan crowdedExample).error = none ∧
      spaced (scan crowdedExample).tokens.dropLast = "#t rue ' a \x22;\x22 #x\x22 ,@ b #|" ∧
      (scan "#t rue ' a \x22;\x22 #x\x22 ,@ b #|").tokens.map Token.unplaced =
        (scan crowdedExample).tokens.map Token.unplaced := by
  obtain ⟨-, htokens, -⟩ := @scan_spaced crowdedExample rfl
  have htext : spaced (scan crowdedExample).tokens.dropLast = "#t rue ' a \x22;\x22 #x\x22 ,@ b #|" := by
    decide +kernel
  rw [htext] at htokens
  exact ⟨rfl, htext, htokens⟩

end MiniScheme.Token
