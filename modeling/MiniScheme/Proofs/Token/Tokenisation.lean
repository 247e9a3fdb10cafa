import MiniScheme.Proofs.Token.Lexemes

/-!
# The longest-match tokenisation

A text is written as gaps and longest lexemes by turns, up to its end or to a character that starts neither. There is
one way to do so, and the scanner finds it.

* `Tokenised position line text tokens last rest` — the text is tokenised so as far as `rest`, which line `last` is at.
* `exists_tokenised` — every text is tokenised as it is scanned.
* `Tokenised.unique` — a text is tokenised in one way only.
* `Tokenised.before` — without its rest, a text is tokenised in the same way.
* `scan_longestMatch` — the scan of a text is its tokenisation.
-/

namespace MiniScheme.Token

/-- The text, which stands after `position` characters on the given line, is a gap, a longest lexeme, another gap and so
on. It is over with `rest`, or `rest` starts with a stray character. Line breaks inside a lexeme are not counted. -/
inductive Tokenised :
    (position line : Nat) → (text : List Char) → List (Token Atom) → (last : Nat) → (rest : List Char) → Prop where
  | stop {position line : Nat} {gap rest : List Char} (hgap : Gap gap rest) (hrest : ∀ c ∈ rest.head?, Stray c) :
    Tokenised position line (gap ++ rest) [] (line + gap.count '\n') rest
  | token {position line last : Nat} {gap lexeme text rest : List Char} {kind : Kind Atom} {tokens : List (Token Atom)}
    (hgap : Gap gap (lexeme ++ text)) (hlexeme : Longest kind lexeme text)
    (h : Tokenised (position + gap.length + lexeme.length) (line + gap.count '\n') text tokens last rest) :
    Tokenised position line (gap ++ (lexeme ++ text))
      (⟨kind, (position + gap.length : Nat), String.ofList lexeme, (line + gap.count '\n' : Nat)⟩ :: tokens) last rest

/-- No gap starts here. -/
def Bare (text : List Char) : Prop := ∀ c ∈ text.head?, c ∉ [' ', '\t', '\r', '\n', ';']

variable {gap gap' lexeme lexeme' after after' text front more rest rest' : List Char} {kind kind' : Kind Atom}
  {tokens tokens' : List (Token Atom)} {position line last last' : Nat}

/-! ## Gaps -/

theorem takeWhile_line {cs : List Char} (hcs : '\n' ∉ cs) (hafter : EndsLine after) :
    (cs ++ after).takeWhile (· != '\n') = cs := by
  rw [List.takeWhile_append_of_pos (all_bne hcs)]
  cases after with
  | nil => simp
  | cons d after =>
    have hd : d = '\n' := hafter d rfl
    simp [hd]

theorem Gap.congr (h : Gap gap after) (hafter : EndsLine after → EndsLine after') : Gap gap after' := by
  induction h with
  | nil => exact .nil
  | blank hc h ih => exact .blank hc (ih hafter)
  | @comment cs gap after hcs hends h ih =>
    refine .comment hcs ?_ (ih hafter)
    cases gap with
    | nil => exact hafter hends
    | cons d gap => exact hends

theorem Gap.eq_nil (h : Gap gap after) (hbare : Bare (gap ++ after)) : gap = [] := by
  cases h with
  | nil => rfl
  | blank hc h =>
    have hnot := hbare _ rfl
    simp only [List.mem_cons, not_or] at hc hnot
    simp [hnot] at hc
  | comment hcs hends h =>
    have hnot := hbare _ rfl
    simp at hnot

/-- A gap reaches as far as there is one. -/
theorem Gap.unique (h : Gap gap after) (h' : Gap gap' after') (hsplit : gap ++ after = gap' ++ after')
    (hbare : Bare after) (hbare' : Bare after') : gap = gap' := by
  induction h generalizing gap' with
  | nil =>
    rw [List.nil_append] at hsplit
    exact (h'.eq_nil (hsplit ▸ hbare)).symm
  | @blank c gap after hc h ih =>
    cases h' with
    | nil => exact (Gap.blank hc h).eq_nil (hsplit ▸ hbare')
    | blank hc' h' =>
      obtain ⟨rfl, htail⟩ := List.cons.inj hsplit
      rw [ih h' htail hbare]
    | comment hcs hends h' =>
      obtain ⟨rfl, -⟩ := List.cons.inj hsplit
      simp at hc
  | @comment cs gap after hcs hends h ih =>
    cases h' with
    | nil => exact (Gap.comment hcs hends h).eq_nil (hsplit ▸ hbare')
    | blank hc' h' =>
      obtain ⟨rfl, -⟩ := List.cons.inj hsplit
      simp at hc'
    | @comment cs' gap' _ hcs' hends' h' =>
      have htail : cs ++ (gap ++ after) = cs' ++ (gap' ++ after') := by simpa using hsplit
      have hline : cs = cs' := by
        rw [← takeWhile_line hcs hends, htail, takeWhile_line hcs' hends']
      subst hline
      rw [ih h' (List.append_cancel_left htail) hbare]

/-- Every text starts with a gap after which there is none. -/
theorem exists_gap (text : List Char) : ∃ gap after, text = gap ++ after ∧ Gap gap after ∧ Bare after := by
  induction hlength : text.length using Nat.strongRecOn generalizing text with
  | ind length ih =>
    cases text with
    | nil => exact ⟨[], [], rfl, .nil, nofun⟩
    | cons c text =>
      by_cases hblank : c ∈ [' ', '\t', '\r', '\n']
      · obtain ⟨gap, after, rfl, hgap, hbare⟩ := ih text.length (by simp [← hlength]) text rfl
        exact ⟨c :: gap, after, rfl, .blank hblank hgap, hbare⟩
      by_cases hcomment : c = ';'
      · subst hcomment
        have hsplit := List.takeWhile_append_dropWhile (p := (· != '\n')) (l := text)
        have hline : '\n' ∉ text.takeWhile (· != '\n') := fun h => by simpa using Piece.mem_takeWhile text _ h
        have hends : EndsLine (text.dropWhile (· != '\n')) := by
          intro d hd
          have := List.head?_dropWhile_not (· != '\n') text
          rw [hd] at this
          simpa using this
        have hle := (List.dropWhile_sublist (· != '\n') (l := text)).length_le
        obtain ⟨gap, after, hafter, hgap, hbare⟩ := ih _ (by simp at hlength; omega) (text.dropWhile (· != '\n')) rfl
        rw [hafter] at hsplit hends
        refine ⟨_, after, ?_, .comment hline hends hgap, hbare⟩
        rw [List.cons_append, List.append_assoc, hsplit]
      · refine ⟨[], c :: text, rfl, .nil, ?_⟩
        intro d hd
        cases hd
        simp at hblank
        simp [hblank, hcomment]

/-- A gap is passed over, and its line breaks are counted. -/
theorem scanFrom_gap (h : Gap gap after) (done : List (Token Atom)) (position line : Nat) :
    scanFrom done 0 position line (gap ++ after) =
      scanFrom done 0 (position + gap.length) (line + gap.count '\n') after := by
  induction h generalizing position line with
  | nil => rfl
  | @blank c gap after hc h ih =>
    have hposition : position + (c :: gap).length = position + 1 + gap.length := by
      rw [List.length_cons]
      omega
    rw [hposition, List.cons_append]
    simp only [List.mem_cons, List.not_mem_nil, or_false] at hc
    rcases hc with rfl | rfl | rfl | rfl
    · exact ih (position + 1) line
    · exact ih (position + 1) line
    · exact ih (position + 1) line
    · rw [List.count_cons_self, show line + (gap.count '\n' + 1) = line + 1 + gap.count '\n' by omega]
      exact ih (position + 1) (line + 1)
  | @comment cs gap after hcs hends h ih =>
    have hposition : position + (';' :: (cs ++ gap)).length = position + 1 + cs.length + gap.length := by
      simp
      omega
    have hcount : (';' :: (cs ++ gap)).count '\n' = gap.count '\n' := by
      simp [List.count_eq_zero_of_not_mem hcs]
    have hfirst : Piece.first ';' (cs ++ (gap ++ after)) =
      .blank ((cs ++ (gap ++ after)).takeWhile (· != '\n')).length := rfl
    rw [List.cons_append, List.append_assoc, scanFrom_cons, hfirst, takeWhile_line hcs hends]
    dsimp only
    rw [scanFrom_skip, ih, hposition, hcount]

/-! ## Lexemes -/

/-- No lexeme starts a gap. -/
theorem Lexeme.bare (h : Lexeme kind lexeme after) (text : List Char) : Bare (lexeme ++ text) := by
  cases lexeme with
  | nil => exact absurd rfl h.ne_nil
  | cons c cs =>
    intro d hd
    cases hd
    obtain ⟨kind', width, hfirst, -⟩ := h.first_token []
    intro hgap
    simp only [List.mem_cons, List.not_mem_nil, or_false] at hgap
    rcases hgap with rfl | rfl | rfl | rfl | rfl <;> cases hfirst

theorem Stray.bare (h : ∀ c ∈ rest.head?, Stray c) : Bare rest := by
  intro c hc hgap
  by_cases hcomment : c = ';'
  · subst hcomment
    have hnothing : Gap [';'] [] := .comment List.not_mem_nil (by simp [EndsLine]) .nil
    exact (h _ hc).not_gap hnothing
  · have hblank : c ∈ [' ', '\t', '\r', '\n'] := by simpa [hcomment] using hgap
    have hgap : Gap [c] [] := .blank hblank .nil
    exact (h c hc).not_gap hgap

/-- Only one lexeme is the longest. -/
theorem Longest.unique (h : Longest kind lexeme after) (h' : Longest kind' lexeme' after')
    (hsplit : lexeme ++ after = lexeme' ++ after') : lexeme = lexeme' ∧ after = after' ∧ kind = kind' := by
  have hlength : lexeme.length = lexeme'.length :=
    Nat.le_antisymm (h'.longest hsplit h.lexeme) (h.longest hsplit.symm h'.lexeme)
  obtain ⟨rfl, rfl⟩ := List.append_inj hsplit hlength
  refine ⟨rfl, rfl, ?_⟩
  cases lexeme with
  | nil => exact absurd rfl h.lexeme.ne_nil
  | cons c cs =>
    have hfirst := Piece.first_token_iff.2 h
    rw [Piece.first_token_iff.2 h'] at hfirst
    cases hfirst
    rfl

/-- A lexeme that is not the end of the text is one whatever follows it. -/
theorem Lexeme.congr (h : Lexeme kind lexeme after) (hafter : after ≠ []) (after' : List Char) :
    Lexeme kind lexeme after' := by
  cases h with
  | leftBracket => exact .leftBracket
  | rightBracket => exact .rightBracket
  | quasiquote => exact .quasiquote
  | quote => exact .quote
  | unquote => exact .unquote
  | unquoteSplicing => exact .unquoteSplicing
  | boolean b => exact .boolean b
  | number hc hcs => exact .number hc hcs
  | symbol hc hcs => exact .symbol hc hcs
  | string hmark hbody => exact .string hmark hbody
  | openString hmark hbody => exact absurd rfl hafter

/-- A longest lexeme stays the longest when something behind it is left out. -/
theorem Longest.before (h : Longest kind lexeme (front ++ more)) (hmore : more ≠ []) :
    Longest kind lexeme front := by
  cases lexeme with
  | nil => exact absurd rfl h.lexeme.ne_nil
  | cons c cs =>
    refine ⟨h.lexeme.congr (by simp [hmore]) front, fun {kind' other after'} hsplit hother => ?_⟩
    cases other with
    | nil => exact Nat.zero_le _
    | cons d ds =>
      rw [List.cons_append, List.cons_append] at hsplit
      obtain ⟨rfl, htail⟩ := List.cons.inj hsplit
      obtain ⟨_, width, hfirst, hwidth, -⟩ := hother.first_token more
      rw [htail, List.append_assoc, Piece.first_token_iff.2 h] at hfirst
      cases hfirst
      exact Nat.succ_le_succ hwidth

/-! ## Tokenisations -/

/-- **A text is tokenised in one way only.** -/
theorem Tokenised.unique (h : Tokenised position line text tokens last rest)
    (h' : Tokenised position line text tokens' last' rest') : tokens = tokens' ∧ last = last' ∧ rest = rest' := by
  induction h generalizing tokens' with
  | @stop position line gap rest hgap hrest =>
    generalize htext : gap ++ rest = text at h'
    cases h' with
    | @stop _ _ gap' _ hgap' hrest' =>
      obtain rfl := hgap.unique hgap' htext (Stray.bare hrest) (Stray.bare hrest')
      exact ⟨rfl, rfl, List.append_cancel_left htext⟩
    | @token _ _ _ gap' lexeme text' _ kind _ hgap' hlexeme h' =>
      obtain rfl := hgap.unique hgap' htext (Stray.bare hrest) (hlexeme.lexeme.bare _)
      have hsplit : rest = lexeme ++ text' := List.append_cancel_left htext
      cases lexeme with
      | nil => exact absurd rfl hlexeme.lexeme.ne_nil
      | cons c cs => exact absurd hlexeme.lexeme (hrest c (by simp [hsplit])).not_lexeme
  | @token position line last gap lexeme text rest kind tokens hgap hlexeme h ih =>
    generalize htext : gap ++ (lexeme ++ text) = whole at h'
    cases h' with
    | @stop _ _ gap' rest' hgap' hrest' =>
      obtain rfl := hgap.unique hgap' htext (hlexeme.lexeme.bare _) (Stray.bare hrest')
      have hsplit : lexeme ++ text = rest' := List.append_cancel_left htext
      cases lexeme with
      | nil => exact absurd rfl hlexeme.lexeme.ne_nil
      | cons c cs => exact absurd hlexeme.lexeme (hrest' c (by simp [← hsplit])).not_lexeme
    | @token _ _ _ gap' lexeme' text' _ kind' tokens' hgap' hlexeme' h' =>
      obtain rfl := hgap.unique hgap' htext (hlexeme.lexeme.bare _) (hlexeme'.lexeme.bare _)
      obtain ⟨rfl, rfl, rfl⟩ := hlexeme.unique hlexeme' (List.append_cancel_left htext)
      obtain ⟨rfl, rfl, rfl⟩ := ih h'
      exact ⟨rfl, rfl, rfl⟩

/-- **Without its rest, a text is tokenised in the same way** and to its end. -/
theorem Tokenised.before (h : Tokenised position line text tokens last rest) (hrest : rest ≠ []) :
    ∃ before, text = before ++ rest ∧ Tokenised position line before tokens last [] := by
  induction h with
  | @stop position line gap rest hgap hstray =>
    refine ⟨gap, rfl, ?_⟩
    have hends : Gap gap [] := hgap.congr fun _ => nofun
    have hstop : Tokenised position line (gap ++ []) [] (line + gap.count '\n') [] := .stop hends (by simp)
    rwa [List.append_nil] at hstop
  | @token position line last gap lexeme text rest kind tokens hgap hlexeme h ih =>
    obtain ⟨before, rfl, hbefore⟩ := ih hrest
    refine ⟨gap ++ (lexeme ++ before), by simp, .token ?_ (hlexeme.before hrest) hbefore⟩
    refine hgap.congr fun hends => ?_
    cases lexeme with
    | nil => exact absurd rfl hlexeme.lexeme.ne_nil
    | cons c cs => exact hends

theorem Tokenised.stray (h : Tokenised position line text tokens last rest) : ∀ c ∈ rest.head?, Stray c := by
  induction h with
  | stop hgap hrest => exact hrest
  | token hgap hlexeme h ih => exact ih

theorem Tokenised.isEof_eq (h : Tokenised position line text tokens last rest) :
    ∀ t ∈ tokens, t.kind.isEof = false := by
  induction h with
  | stop => exact List.forall_mem_nil _
  | token hgap hlexeme h ih => exact List.forall_mem_cons.2 ⟨hlexeme.lexeme.isEof_eq, ih⟩

/-- What is scanned of a text that is tokenised so: up to its end, or up to the character that nothing starts with. -/
def Scan.upTo (tokens : List (Token Atom)) (last : Nat) : List Char → Scan
  | [] => ⟨tokens ++ [endOfInput last], none⟩
  | c :: _ => ⟨tokens, some ⟨last, .unknownCharacter c⟩⟩

/-- **Every text is tokenised as it is scanned.** -/
theorem exists_tokenised (position line : Nat) (text : List Char) :
    ∃ tokens last rest, Tokenised position line text tokens last rest ∧
      ∀ done, scanFrom done 0 position line text = (Scan.upTo tokens last rest).after done.reverse := by
  induction hlength : text.length using Nat.strongRecOn generalizing position line text with
  | ind length ih =>
    obtain ⟨gap, after, rfl, hgap, hbare⟩ := exists_gap text
    cases after with
    | nil =>
      refine ⟨[], _, [], .stop hgap (by simp), fun done => ?_⟩
      rw [scanFrom_gap hgap]
      simp [scanFrom, Scan.upTo, Scan.after]
    | cons c after =>
      have hright := Piece.first_right c after
      have hfits := Piece.first_fits c after
      have hnot := hbare c rfl
      cases hpiece : Piece.first c after with
      | blank width =>
        rw [hpiece] at hright
        rcases hright with ⟨hc, -⟩ | ⟨hc, -⟩
        · simp only [List.mem_cons, List.not_mem_nil, or_false] at hc
          rcases hc with rfl | rfl | rfl <;> simp at hnot
        · simp [hc] at hnot
      | newline =>
        rw [hpiece] at hright
        have hc : c = '\n' := hright
        simp [hc] at hnot
      | stray =>
        rw [hpiece] at hright
        refine ⟨[], _, c :: after, .stop hgap ?_, fun done => ?_⟩
        · intro d hd
          cases hd
          exact hright
        · rw [scanFrom_gap hgap, scanFrom_cons, hpiece]
          simp [Scan.upTo, Scan.after]
      | token kind width =>
        obtain ⟨-, hwidth⟩ : kind.isEof = false ∧ width ≤ after.length := by
          rw [hpiece] at hfits
          exact hfits
        obtain ⟨cs, text, rfl, rfl⟩ : ∃ cs text, after = cs ++ text ∧ width = cs.length :=
          ⟨after.take width, after.drop width, by simp, by simp [hwidth]⟩
        have hlexeme := Piece.first_token_iff.1 hpiece
        obtain ⟨tokens, last, rest, htext, hscan⟩ := ih text.length (by simp at hlength; omega)
          (position + gap.length + (c :: cs).length) (line + gap.count '\n') text rfl
        refine ⟨_, last, rest, .token hgap hlexeme htext, fun done => ?_⟩
        have hposition : position + gap.length + 1 + cs.length = position + gap.length + (c :: cs).length := by
          rw [List.length_cons]
          omega
        rw [scanFrom_gap hgap, scanFrom_piece hpiece, hposition, hscan]
        cases rest <;> simp [Scan.upTo, Scan.after]

/-- The scan of a text is the tokenisation that the text has. -/
theorem scan_eq_upTo (source : String) : ∃ tokens last rest, Tokenised 0 0 source.toList tokens last rest ∧
    scan source = Scan.upTo tokens last rest := by
  obtain ⟨tokens, last, rest, htokenised, hscan⟩ := exists_tokenised 0 0 source.toList
  refine ⟨tokens, last, rest, htokenised, ?_⟩
  unfold scan
  rw [hscan []]
  rfl

/-- **The scan of a text is its longest-match tokenisation.** There is one. The scan has its tokens and the mark for the
end, if the whole text is tokenised. Otherwise it stops at the character that starts no lexeme and no gap, with the
tokens that the text before it has. -/
theorem scan_longestMatch (source : String) :
    ∃ tokens last rest, Tokenised 0 0 source.toList tokens last rest ∧
      (∀ {tokens' last' rest'}, Tokenised 0 0 source.toList tokens' last' rest' →
        tokens' = tokens ∧ last' = last ∧ rest' = rest) ∧
      (∀ t ∈ tokens, t.kind.isEof = false) ∧
      ((scan source).error = none ↔ rest = []) ∧
      (rest = [] → (scan source).tokens = tokens ++ [endOfInput last]) ∧
      (rest ≠ [] → ∃ c more before, rest = c :: more ∧ Stray c ∧ source.toList = before ++ rest ∧
        scan source = ⟨tokens, some ⟨last, .unknownCharacter c⟩⟩ ∧
        scan (String.ofList before) = ⟨tokens ++ [endOfInput last], none⟩) := by
  obtain ⟨tokens, last, rest, htokenised, hscan⟩ := exists_tokenised 0 0 source.toList
  have hsource : scan source = Scan.upTo tokens last rest := by
    unfold scan
    rw [hscan []]
    rfl
  refine ⟨tokens, last, rest, htokenised, fun h => h.unique htokenised, htokenised.isEof_eq, ?_⟩
  rw [hsource]
  cases rest with
  | nil => simp [Scan.upTo]
  | cons c more =>
    refine ⟨by simp [Scan.upTo], nofun, fun hrest => ?_⟩
    obtain ⟨before, hsplit, hbefore⟩ := htokenised.before hrest
    obtain ⟨tokens', last', rest', htokenised', hscan'⟩ := exists_tokenised 0 0 before
    obtain ⟨rfl, rfl, rfl⟩ := hbefore.unique htokenised'
    refine ⟨c, more, before, rfl, htokenised.stray c rfl, hsplit, rfl, ?_⟩
    unfold scan
    rw [String.toList_ofList, hscan' []]
    rfl

end MiniScheme.Token
