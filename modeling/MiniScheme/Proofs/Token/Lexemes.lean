import MiniScheme.Proofs.Token.Scanning

/-!
# Lexemes and gaps

What a lexeme is and what may stand between two, said without the scanner, and that a piece of a text that is a token
is the longest lexeme there is at its place.

* `Lexeme kind cs after` — the characters make a token of this kind, if `after` follows them.
* `Longest kind cs after` — besides, no longer lexeme of any kind starts at the same place.
* `Gap gap after` — the characters are white space and comments, if `after` follows them.
* `Stray c` — no lexeme and no gap starts with the character.
* `Lexeme.first_token`, `Piece.first_right` — what the piece at the head of a lexeme is, and what a piece stands for.
* `Piece.first_token_iff` — the pieces that are tokens are exactly the longest lexemes.
-/

namespace MiniScheme.Token

/-- A string may start with the mark and go on with the body: a double quote opens every string, and a `#` one whose
body does not make it a boolean. -/
def OpensString (mark : Char) (body : List Char) : Prop :=
  mark = '\x22' ∨ mark = '#' ∧ body.head? ≠ some 't' ∧ body.head? ≠ some 'f'

/-- The characters are a lexeme of this kind, if `after` is what follows them. Only a string without its closing quote
asks for what follows: it is one at the end of the text. -/
inductive Lexeme : Kind Atom → List Char → (after : List Char) → Prop where
  | leftBracket {after : List Char} : Lexeme .leftBracket ['('] after
  | rightBracket {after : List Char} : Lexeme .rightBracket [')'] after
  | quasiquote {after : List Char} : Lexeme .quasiquote ['\x60'] after
  | quote {after : List Char} : Lexeme .quote ['\x27'] after
  | unquote {after : List Char} : Lexeme .unquote [','] after
  | unquoteSplicing {after : List Char} : Lexeme .unquoteSplicing [',', '@'] after
  | boolean (b : Bool) {after : List Char} : Lexeme (.boolean (.boolean b)) ['#', if b then 't' else 'f'] after
  | number {c : Char} {cs after : List Char} (hc : c.isDigit = true) (hcs : ∀ d ∈ cs, isNumberChar d = true) :
    Lexeme (.number (.number (Numeral.read (c :: cs)))) (c :: cs) after
  | symbol {c : Char} {cs after : List Char} (hc : c.isDigit = false) (hcs : ∀ d ∈ c :: cs, isSymbolChar d = true) :
    Lexeme .symbol (c :: cs) after
  | string {mark : Char} {body after : List Char} (hmark : OpensString mark body) (hbody : '\x22' ∉ body) :
    Lexeme (.string (.string (String.ofList body))) (mark :: (body ++ ['\x22'])) after
  | openString {mark : Char} {body : List Char} (hmark : OpensString mark body) (hbody : '\x22' ∉ body) :
    Lexeme (.string (.string (String.ofList body))) (mark :: body) []

/-- A lexeme than which none at its place is longer. -/
structure Longest (kind : Kind Atom) (cs after : List Char) : Prop where
  lexeme : Lexeme kind cs after
  longest : ∀ {kind' : Kind Atom} {other after' : List Char},
    other ++ after' = cs ++ after → Lexeme kind' other after' → other.length ≤ cs.length

/-- A line ends here: the text is over or goes on with a line break. -/
def EndsLine (text : List Char) : Prop := ∀ c ∈ text.head?, c = '\n'

/-- The characters are spaces, tabs, carriage returns, line breaks and comments, if `after` is what follows them. A
comment goes on to the end of its line. -/
inductive Gap : List Char → (after : List Char) → Prop where
  | nil {after : List Char} : Gap [] after
  | blank {c : Char} {gap after : List Char} (hc : c ∈ [' ', '\t', '\r', '\n']) (h : Gap gap after) :
    Gap (c :: gap) after
  | comment {cs gap after : List Char} (hcs : '\n' ∉ cs) (hends : EndsLine (gap ++ after)) (h : Gap gap after) :
    Gap (';' :: (cs ++ gap)) after

/-- No lexeme and no gap starts with the character, whatever follows it. -/
structure Stray (c : Char) : Prop where
  not_lexeme : ∀ {kind : Kind Atom} {cs after : List Char}, ¬Lexeme kind (c :: cs) after
  not_gap : ∀ {cs after : List Char}, ¬Gap (c :: cs) after

variable {kind : Kind Atom} {c mark : Char} {cs body after more rest : List Char} {width : Nat}

theorem Lexeme.ne_nil (h : Lexeme kind cs after) : cs ≠ [] := by
  cases h <;> simp

theorem Lexeme.isEof_eq (h : Lexeme kind cs after) : kind.isEof = false := by
  cases h <;> rfl

theorem OpensString.append (h : OpensString mark body) (hmore : mark = '#' → body = [] →
    more.head? ≠ some 't' ∧ more.head? ≠ some 'f') : OpensString mark (body ++ more) := by
  rcases h with rfl | ⟨rfl, ht, hf⟩
  · exact .inl rfl
  · right
    cases body with
    | nil => exact ⟨rfl, hmore rfl rfl⟩
    | cons d body => exact ⟨rfl, ht, hf⟩

theorem all_bne (hc : c ∉ cs) : ∀ d ∈ cs, (d != c) = true := by
  intro d hd
  simp only [bne_iff_ne]
  exact fun heq => hc (heq ▸ hd)

/-! ## The piece at the head of a lexeme -/

namespace Piece

theorem first_symbol (hc : c.isDigit = false) (hsymbol : isSymbolChar c = true) (rest : List Char) :
    first c rest = .token .symbol (rest.takeWhile isSymbolChar).length := by
  have hne {d : Char} (hd : isSymbolChar d = false) : c ≠ d := by
    intro h
    subst h
    simp [hsymbol] at hd
  have hblank : ¬(c = ' ' ∨ c = '\r' ∨ c = '\t') := by
    simp [hne (d := ' ') (by decide), hne (d := '\r') (by decide), hne (d := '\t') (by decide)]
  unfold first
  rw [if_neg (hne (by decide)), if_neg (hne (by decide)), if_neg hblank, if_neg (hne (by decide)),
    if_neg (hne (by decide)), if_neg (hne (by decide)), if_neg (hne (by decide)), if_neg (hne (by decide)),
    if_neg (hne (by decide)), if_neg (hne (by decide)), if_neg (by simp [hc]), if_pos hsymbol]

theorem first_mark (h : OpensString mark rest) : first mark rest = stringBody rest := by
  rcases h with rfl | ⟨rfl, ht, hf⟩
  · rfl
  · cases rest with
    | nil => rfl
    | cons d rest =>
      have ht : d ≠ 't' := by simpa using ht
      have hf : d ≠ 'f' := by simpa using hf
      unfold first
      rw [if_neg (by decide), if_neg (by decide), if_neg (by decide), if_neg (by decide), if_pos rfl]
      split <;> simp_all

theorem stringBody_closed (hbody : '\x22' ∉ body) (rest : List Char) :
    stringBody (body ++ '\x22' :: rest) = .token (.string (.string (String.ofList body))) (body.length + 1) := by
  have htake : (body ++ '\x22' :: rest).takeWhile (· != '\x22') = body := by
    rw [List.takeWhile_append_of_pos (all_bne hbody), List.takeWhile_cons_of_neg (by simp), List.append_nil]
  unfold stringBody
  dsimp only
  rw [htake, if_pos (by simp)]

theorem stringBody_open (hbody : '\x22' ∉ body) : stringBody body = openString body := by
  have htake : body.takeWhile (· != '\x22') = body := by
    rw [← List.append_nil body, List.takeWhile_append_of_pos (all_bne hbody)]
    rfl
  unfold stringBody openString
  dsimp only
  rw [htake, if_neg (by omega), Nat.add_zero]

/-- A string reaches at least as far as there is no quote. -/
theorem stringBody_reaches (hbody : '\x22' ∉ body) (more : List Char) :
    ∃ kind width, stringBody (body ++ more) = .token kind width ∧ body.length ≤ width := by
  refine ⟨_, _, rfl, ?_⟩
  rw [List.takeWhile_append_of_pos (all_bne hbody), List.length_append]
  omega

theorem first_hash (rest : List Char) : ∃ kind width, first '#' rest = .token kind width := by
  unfold first
  rw [if_neg (by decide), if_neg (by decide), if_neg (by decide), if_neg (by decide), if_pos rfl]
  split <;> exact ⟨_, _, rfl⟩

theorem first_unquote (hrest : rest.head? ≠ some '@') : first ',' rest = .token .unquote 0 := by
  cases rest with
  | nil => rfl
  | cons d rest =>
    have hd : d ≠ '@' := by simpa using hrest
    unfold first
    rw [if_neg (by decide), if_neg (by decide), if_neg (by decide), if_neg (by decide), if_neg (by decide),
      if_neg (by decide), if_neg (by decide), if_neg (by decide), if_neg (by decide), if_pos rfl]
    split <;> simp_all

end Piece

/-- **A text that starts with a lexeme starts with a token** that is no shorter, and is the lexeme if it is no
longer. -/
theorem Lexeme.first_token (h : Lexeme kind (c :: cs) after) (more : List Char) :
    ∃ kind' width, Piece.first c (cs ++ after ++ more) = .token kind' width ∧ cs.length ≤ width ∧
      (more = [] → width = cs.length → kind' = kind) := by
  cases h with
  | leftBracket => exact ⟨.leftBracket, 0, rfl, Nat.le_refl _, fun _ _ => rfl⟩
  | rightBracket => exact ⟨.rightBracket, 0, rfl, Nat.le_refl _, fun _ _ => rfl⟩
  | quasiquote => exact ⟨.quasiquote, 0, rfl, Nat.le_refl _, fun _ _ => rfl⟩
  | quote => exact ⟨.quote, 0, rfl, Nat.le_refl _, fun _ _ => rfl⟩
  | unquote =>
    by_cases hsplicing : (after ++ more).head? = some '@'
    · obtain ⟨rest, hrest⟩ := List.head?_eq_some_iff.1 hsplicing
      exact ⟨.unquoteSplicing, 1, by rw [List.nil_append, hrest]; rfl, Nat.zero_le _, by simp⟩
    · exact ⟨.unquote, 0, by rw [List.nil_append]; exact Piece.first_unquote hsplicing, Nat.le_refl _, by simp⟩
  | unquoteSplicing => exact ⟨.unquoteSplicing, 1, rfl, Nat.le_refl _, fun _ _ => rfl⟩
  | boolean b => exact ⟨_, 1, Piece.first_boolean b _, Nat.le_refl _, fun _ _ => rfl⟩
  | number hc hcs =>
    have hrun : (cs ++ after ++ more).takeWhile isNumberChar = cs ++ (after ++ more).takeWhile isNumberChar := by
      rw [List.append_assoc, List.takeWhile_append_of_pos hcs]
    refine ⟨_, _, Piece.first_digit hc _, ?_, ?_⟩
    · rw [hrun, List.length_append]
      omega
    · intro _ hwidth
      rw [hrun, List.length_append, Nat.add_eq_left, List.length_eq_zero_iff] at hwidth
      rw [hrun, hwidth, List.append_nil]
  | symbol hc hcs =>
    have hrun : (cs ++ after ++ more).takeWhile isSymbolChar = cs ++ (after ++ more).takeWhile isSymbolChar := by
      rw [List.append_assoc, List.takeWhile_append_of_pos fun d hd => hcs d (List.mem_cons_of_mem _ hd)]
    refine ⟨_, _, Piece.first_symbol hc (hcs c List.mem_cons_self) _, ?_, fun _ _ => rfl⟩
    rw [hrun, List.length_append]
    omega
  | @string _ body _ hmark hbody =>
    refine ⟨_, body.length + 1, ?_, by simp, fun _ _ => rfl⟩
    have hopens : OpensString c (body ++ ('\x22' :: (after ++ more))) := hmark.append (by simp)
    have hrest : body ++ ['\x22'] ++ after ++ more = body ++ '\x22' :: (after ++ more) := by simp
    rw [hrest, Piece.first_mark hopens, Piece.stringBody_closed hbody]
  | openString hmark hbody =>
    rw [List.append_nil]
    by_cases hends : more = []
    · subst hends
      rw [List.append_nil]
      exact ⟨_, _, (Piece.first_mark hmark).trans (Piece.stringBody_open hbody), Nat.le_refl _, fun _ _ => rfl⟩
    · by_cases hempty : c = '#' ∧ cs = []
      · obtain ⟨rfl, rfl⟩ := hempty
        obtain ⟨kind', width, hfirst⟩ := Piece.first_hash ([] ++ more)
        exact ⟨kind', width, hfirst, Nat.zero_le _, fun h => absurd h hends⟩
      · have hopens : OpensString c (cs ++ more) := hmark.append fun hc hcs => absurd ⟨hc, hcs⟩ hempty
        obtain ⟨kind', width, hbody, hwidth⟩ := Piece.stringBody_reaches hbody more
        exact ⟨kind', width, (Piece.first_mark hopens).trans hbody, hwidth, fun h => absurd h hends⟩

/-! ## What a piece stands for -/

theorem OpensString.of_append (h : OpensString mark (body ++ '\x22' :: rest)) : OpensString mark body := by
  rcases h with rfl | ⟨rfl, ht, hf⟩
  · exact .inl rfl
  · cases body with
    | nil => exact .inr ⟨rfl, nofun, nofun⟩
    | cons d body => exact .inr ⟨rfl, ht, hf⟩

namespace Piece

/-- The piece stands for the characters it takes from the text. -/
def Right (c : Char) (rest : List Char) : Piece → Prop
  | blank width => c ∈ [' ', '\t', '\r'] ∧ width = 0 ∨ c = ';' ∧ width = (rest.takeWhile (· != '\n')).length
  | newline => c = '\n'
  | token kind width => Lexeme kind (c :: rest.take width) (rest.drop width)
  | stray => Stray c

theorem take_takeWhile (p : Char → Bool) (cs : List Char) :
    cs.take (cs.takeWhile p).length = cs.takeWhile p :=
  (List.prefix_iff_eq_take.1 (List.takeWhile_prefix p)).symm

theorem mem_takeWhile {p : Char → Bool} (cs : List Char) : ∀ d ∈ cs.takeWhile p, p d = true :=
  List.all_eq_true.1 List.all_takeWhile

theorem stringBody_right (h : OpensString mark rest) : (stringBody rest).Right mark rest := by
  by_cases hquote : '\x22' ∈ rest
  · obtain ⟨body, after, rfl, hbody⟩ := List.eq_append_cons_of_mem hquote
    have htake : (body ++ '\x22' :: after).take (body.length + 1) = body ++ ['\x22'] := by
      rw [List.take_length_add_append]
      rfl
    rw [stringBody_closed hbody]
    show Lexeme _ (mark :: (body ++ '\x22' :: after).take (body.length + 1)) _
    rw [htake]
    exact .string h.of_append hbody
  · rw [stringBody_open hquote]
    show Lexeme _ (mark :: rest.take rest.length) (rest.drop rest.length)
    rw [List.take_length, List.drop_length]
    exact .openString h hquote

/-- A character that begins no piece begins no lexeme and no gap. -/
theorem stray_right (hmarks : c ∉ ['(', ')', ' ', '\r', '\t', '\n', '#', '\x22', ';', '\x60', '\x27', ','])
    (hdigit : c.isDigit = false) (hsymbol : isSymbolChar c = false) : Stray c where
  not_lexeme h := by
    have hopens {body : List Char} : ¬OpensString c body := by
      intro h
      rcases h with rfl | ⟨rfl, -, -⟩ <;> simp at hmarks
    cases h with
    | number hc hcs => simp [hc] at hdigit
    | symbol hc hcs => simp [hcs c List.mem_cons_self] at hsymbol
    | string hmark hbody => exact hopens hmark
    | openString hmark hbody => exact hopens hmark
    | _ => simp at hmarks
  not_gap h := by
    cases h with
    | blank hc h =>
      simp only [List.mem_cons, List.not_mem_nil, or_false] at hc
      rcases hc with rfl | rfl | rfl | rfl <;> simp at hmarks
    | comment hcs hends h => simp at hmarks

/-- **The piece at the head of a text is what it stands for.** -/
theorem first_right (c : Char) (rest : List Char) : (first c rest).Right c rest := by
  unfold first
  refine iteInduction (fun h => h ▸ .leftBracket) fun h₁ => ?_
  refine iteInduction (fun h => h ▸ .rightBracket) fun h₂ => ?_
  refine iteInduction (fun h => .inl ⟨by grind, rfl⟩) fun h₃ => ?_
  refine iteInduction (fun h => h) fun h₄ => ?_
  refine iteInduction (fun h => ?_) fun h₅ => ?_
  · subst h
    split
    · exact .boolean true
    · exact .boolean false
    · rename_i ht hf
      refine stringBody_right (.inr ⟨rfl, ?_, ?_⟩)
      · intro h
        obtain ⟨more, rfl⟩ := List.head?_eq_some_iff.1 h
        exact ht more rfl
      · intro h
        obtain ⟨more, rfl⟩ := List.head?_eq_some_iff.1 h
        exact hf more rfl
  refine iteInduction (fun h => stringBody_right (.inl h)) fun h₆ => ?_
  refine iteInduction (fun h => .inr ⟨h, rfl⟩) fun h₇ => ?_
  refine iteInduction (fun h => h ▸ .quasiquote) fun h₈ => ?_
  refine iteInduction (fun h => h ▸ .quote) fun h₉ => ?_
  refine iteInduction (fun h => ?_) fun h₁₀ => ?_
  · subst h
    split
    · exact .unquoteSplicing
    · exact .unquote
  refine iteInduction (fun h => ?_) fun h₁₁ => ?_
  · show Lexeme _ (c :: rest.take (rest.takeWhile isNumberChar).length) _
    rw [take_takeWhile]
    exact .number h (mem_takeWhile rest)
  refine iteInduction (fun h => ?_) fun h₁₂ => ?_
  · show Lexeme _ (c :: rest.take (rest.takeWhile isSymbolChar).length) _
    rw [take_takeWhile]
    refine .symbol (by simpa using h₁₁) fun d hd => ?_
    rcases List.mem_cons.1 hd with rfl | hd
    · exact h
    · exact mem_takeWhile rest d hd
  refine stray_right ?_ (by simpa using h₁₁) (by simpa using h₁₂)
  simp only [not_or] at h₃
  simp [h₁, h₂, h₃, h₄, h₅, h₆, h₇, h₈, h₉, h₁₀]

/-- **The pieces that are tokens are the longest lexemes.** -/
theorem first_token_iff {cs : List Char} :
    first c (cs ++ after) = .token kind cs.length ↔ Longest kind (c :: cs) after := by
  constructor
  · intro hfirst
    have hright := first_right c (cs ++ after)
    rw [hfirst] at hright
    have hlexeme : Lexeme kind (c :: cs) after := by simpa [Right] using hright
    refine ⟨hlexeme, fun {kind' other after'} hsplit hother => ?_⟩
    cases other with
    | nil => exact Nat.zero_le _
    | cons d ds =>
      rw [List.cons_append, List.cons_append] at hsplit
      obtain ⟨rfl, htail⟩ := List.cons.inj hsplit
      obtain ⟨_, width, hfirst', hwidth, -⟩ := hother.first_token []
      rw [List.append_nil, htail, hfirst] at hfirst'
      cases hfirst'
      exact Nat.succ_le_succ hwidth
  · intro h
    obtain ⟨kind', width, hfirst, hwidth, hkind⟩ := h.lexeme.first_token []
    rw [List.append_nil] at hfirst
    have hright := first_right c (cs ++ after)
    have hfits := first_fits c (cs ++ after)
    rw [hfirst] at hright hfits
    have hsplit : (c :: (cs ++ after).take width) ++ (cs ++ after).drop width = (c :: cs) ++ after := by simp
    have hle := h.longest hsplit hright
    rw [List.length_cons, List.length_take, List.length_cons] at hle
    have heq : width = cs.length := by
      have := hfits.2
      omega
    rw [hfirst, heq, hkind rfl heq]

end Piece

end MiniScheme.Token
