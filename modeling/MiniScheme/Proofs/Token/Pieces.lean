import MiniScheme.Token.Lexer

/-!
# Pieces of a text

What the head of a text is, and how the scanner passes over it.

* `Piece.first_append` — a line break ends every piece but an open string.
* `scanFrom_done`, `scanFrom_skip` — the tokens read before and the characters passed over come out of the loop.
-/

namespace MiniScheme.Token

variable {α : Type}

/-! ## Runs of characters -/

/-- A run ends where a character does not belong to it. -/
theorem takeWhile_append_stop {p : α → Bool} {x : α} (hx : p x = false) (xs ys : List α) :
    (xs ++ x :: ys).takeWhile p = xs.takeWhile p := by
  rw [List.takeWhile_append]
  split
  · rename_i hall
    have htake := (List.takeWhile_prefix p (l := xs)).eq_of_length hall
    rw [List.takeWhile_cons_of_neg (by rw [hx]; nofun), List.append_nil, htake]
  · rfl

theorem length_takeWhile_le (p : α → Bool) (xs : List α) : (xs.takeWhile p).length ≤ xs.length :=
  (List.takeWhile_prefix p).length_le

/-! ## Pieces -/

namespace Piece

/-- The string that reaches to the end of the text. -/
def openString (rest : List Char) : Piece := .token (.string (.string (String.ofList rest))) rest.length

/-- A string is open, or it is closed and what follows the text does not change it. -/
theorem stringBody_append (rest more : List Char) :
    stringBody rest = openString rest ∨ stringBody (rest ++ more) = stringBody rest := by
  have hle := length_takeWhile_le (· != '\x22') rest
  by_cases hall : (rest.takeWhile (· != '\x22')).length = rest.length
  · left
    have htake := (List.takeWhile_prefix (· != '\x22') (l := rest)).eq_of_length hall
    unfold stringBody openString
    dsimp only
    rw [htake, if_neg (by omega), Nat.add_zero]
  · right
    have htake : (rest ++ more).takeWhile (· != '\x22') = rest.takeWhile (· != '\x22') := by
      rw [List.takeWhile_append, if_neg hall]
    unfold stringBody
    dsimp only
    rw [htake, if_pos (by rw [List.length_append]; omega), if_pos (by omega)]

/-- **A line break ends every piece but an open string.** -/
theorem first_append (c : Char) (rest more : List Char) :
    first c rest = openString rest ∨ first c (rest ++ '\n' :: more) = first c rest := by
  unfold first
  by_cases h₁ : c = '('
  · right; simp only [if_pos h₁]
  by_cases h₂ : c = ')'
  · right; simp only [if_neg h₁, if_pos h₂]
  by_cases h₃ : c = ' ' ∨ c = '\r' ∨ c = '\t'
  · right; simp only [if_neg h₁, if_neg h₂, if_pos h₃]
  by_cases h₄ : c = '\n'
  · right; simp only [if_neg h₁, if_neg h₂, if_neg h₃, if_pos h₄]
  by_cases h₅ : c = '#'
  · simp only [if_neg h₁, if_neg h₂, if_neg h₃, if_neg h₄, if_pos h₅]
    cases rest with
    | nil => left; rfl
    | cons d rest =>
      by_cases ht : d = 't'
      · right; subst ht; rfl
      by_cases hf : d = 'f'
      · right; subst hf; rfl
      · split
        · rename_i heq; cases heq; exact absurd rfl ht
        · rename_i heq; cases heq; exact absurd rfl hf
        · split
          · rename_i heq; cases heq; exact absurd rfl ht
          · rename_i heq; cases heq; exact absurd rfl hf
          · exact stringBody_append (d :: rest) ('\n' :: more)
  simp only [if_neg h₁, if_neg h₂, if_neg h₃, if_neg h₄, if_neg h₅]
  by_cases h₆ : c = '\x22'
  · simp only [if_pos h₆]
    exact stringBody_append rest ('\n' :: more)
  right
  simp only [if_neg h₆]
  by_cases h₇ : c = ';'
  · simp only [if_pos h₇]
    rw [takeWhile_append_stop (by rfl) rest more]
  by_cases h₈ : c = '\x60'
  · simp only [if_neg h₇, if_pos h₈]
  by_cases h₉ : c = '\x27'
  · simp only [if_neg h₇, if_neg h₈, if_pos h₉]
  simp only [if_neg h₇, if_neg h₈, if_neg h₉]
  by_cases h₁₀ : c = ','
  · simp only [if_pos h₁₀]
    cases rest with
    | nil => rfl
    | cons d rest =>
      by_cases hd : d = '@'
      · subst hd; rfl
      · rw [List.cons_append]
        split
        · rename_i heq; cases heq; exact absurd rfl hd
        · split
          · rename_i heq; cases heq; exact absurd rfl hd
          · rfl
  have hnumber : numberRun c (rest ++ '\n' :: more) = numberRun c rest := by
    unfold numberRun
    rw [takeWhile_append_stop (by decide) rest more]
  rw [if_neg h₁₀, if_neg h₁₀, hnumber, takeWhile_append_stop (by decide) rest more]

/-- A piece reaches over at most so many more characters, and is no end of the input. -/
def Fits (length : Nat) : Piece → Prop
  | blank width => width ≤ length
  | token kind width => kind.isEof = false ∧ width ≤ length
  | newline | stray => True

theorem stringBody_fits (rest : List Char) : (stringBody rest).Fits rest.length := by
  have hle := length_takeWhile_le (· != '\x22') rest
  refine ⟨rfl, ?_⟩
  split
  · omega
  · omega

/-- **A piece ends within the text.** -/
theorem first_fits (c : Char) (rest : List Char) : (first c rest).Fits rest.length := by
  unfold first
  refine iteInduction (fun _ => ⟨rfl, Nat.zero_le _⟩) fun _ => ?_
  refine iteInduction (fun _ => ⟨rfl, Nat.zero_le _⟩) fun _ => ?_
  refine iteInduction (fun _ => Nat.zero_le _) fun _ => ?_
  refine iteInduction (fun _ => trivial) fun _ => ?_
  refine iteInduction (fun _ => ?_) fun _ => ?_
  · split
    · exact ⟨rfl, Nat.succ_le_succ (Nat.zero_le _)⟩
    · exact ⟨rfl, Nat.succ_le_succ (Nat.zero_le _)⟩
    · exact stringBody_fits _
  refine iteInduction (fun _ => stringBody_fits rest) fun _ => ?_
  refine iteInduction (fun _ => length_takeWhile_le _ rest) fun _ => ?_
  refine iteInduction (fun _ => ⟨rfl, Nat.zero_le _⟩) fun _ => ?_
  refine iteInduction (fun _ => ⟨rfl, Nat.zero_le _⟩) fun _ => ?_
  refine iteInduction (fun _ => ?_) fun _ => ?_
  · split
    · exact ⟨rfl, Nat.succ_le_succ (Nat.zero_le _)⟩
    · exact ⟨rfl, Nat.zero_le _⟩
  refine iteInduction (fun _ => ⟨rfl, length_takeWhile_le _ rest⟩) fun _ => ?_
  refine iteInduction (fun _ => ⟨rfl, length_takeWhile_le _ rest⟩) fun _ => ?_
  trivial

end Piece

/-! ## The loop -/

/-- The scan with more tokens in front. -/
def Scan.after (tokens : List (Token Atom)) (scan : Scan) : Scan := { scan with tokens := tokens ++ scan.tokens }

theorem Scan.after_after (us vs : List (Token Atom)) (scan : Scan) :
    (scan.after vs).after us = scan.after (us ++ vs) := by
  unfold Scan.after
  rw [List.append_assoc]

theorem scanFrom_cons (done : List (Token Atom)) (position line : Nat) (c : Char) (rest : List Char) :
    scanFrom done 0 position line (c :: rest) =
      match Piece.first c rest with
      | .blank width => scanFrom done width (position + 1) line rest
      | .newline => scanFrom done 0 (position + 1) (line + 1) rest
      | .token kind width =>
        scanFrom (⟨kind, position, String.ofList (c :: rest.take width), line⟩ :: done) width (position + 1) line rest
      | .stray => ⟨done.reverse, some ⟨line, .unknownCharacter c⟩⟩ := rfl

theorem scanFrom_succ (done : List (Token Atom)) (skip position line : Nat) (c : Char) (rest : List Char) :
    scanFrom done (skip + 1) position line (c :: rest) = scanFrom done skip (position + 1) line rest := rfl

/-- What was read before comes out in front. -/
theorem scanFrom_done (done : List (Token Atom)) (skip position line : Nat) (cs : List Char) :
    scanFrom done skip position line cs = (scanFrom [] skip position line cs).after done.reverse := by
  induction cs generalizing done skip position line with
  | nil =>
    unfold scanFrom Scan.after
    rw [List.reverse_cons]
    rfl
  | cons c rest ih =>
    cases skip with
    | succ skip => exact ih done skip (position + 1) line
    | zero =>
      rw [scanFrom_cons, scanFrom_cons]
      cases Piece.first c rest with
      | blank width => exact ih done _ _ _
      | newline => exact ih done _ _ _
      | token kind width =>
        dsimp only
        rw [ih (_ :: done), ih [_], Scan.after_after, List.reverse_cons, List.reverse_singleton]
      | stray =>
        unfold Scan.after
        dsimp only
        rw [List.reverse_nil, List.append_nil]

/-- Characters of the piece read last are passed over. -/
theorem scanFrom_skip (done : List (Token Atom)) (position line : Nat) (cs rest : List Char) :
    scanFrom done cs.length position line (cs ++ rest) = scanFrom done 0 (position + cs.length) line rest := by
  induction cs generalizing position with
  | nil => rfl
  | cons c cs ih =>
    rw [List.length_cons, List.cons_append, scanFrom_succ, ih (position + 1),
      show position + 1 + cs.length = position + (cs.length + 1) by omega]

end MiniScheme.Token
