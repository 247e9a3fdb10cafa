import MiniScheme.Proofs.Token.Pieces

/-!
# Joining texts

Two texts with a line break between them have the tokens of the one and then those of the other, if the first can be
scanned and does not leave a string open. Only the places of the later tokens move.

* `Scan.endsOpen` — the text ends inside a string.
* `Token.moved`, `Scan.moved` — tokens as they stand after another text.
* `scan_join` — the tokens of the joined text.
* `scan_lines` — the whole scan of a text and another in the next line, whether or not the first can be scanned.
-/

namespace MiniScheme.Token

/-! ## Open strings and places -/

/-- A string without a closing quote: its lexeme has one character more than its literal. -/
def isOpenString (token : Token Atom) : Bool :=
  match token.kind with
  | .string (.string s) => token.lexeme.length == s.length + 1
  | _ => false

/-- The text ends inside a string, which is then the last token before the end of the input. -/
def Scan.endsOpen (scan : Scan) : Bool :=
  match scan.tokens.dropLast.getLast? with
  | some token => token.isOpenString
  | none => false

/-- The token as it stands after so many more characters and lines. The end of the input keeps its start. -/
def moved (position line : Nat) (token : Token Atom) : Token Atom :=
  { token with
    start := if token.kind.isEof then token.start else token.start + position
    line := token.line + line }

/-- The scan of the text as it stands after so many more characters and lines. -/
def Scan.moved (position line : Nat) (scan : Scan) : Scan :=
  ⟨scan.tokens.map (Token.moved position line), scan.error.map fun e => { e with line := e.line + line }⟩

theorem scanFrom_moved (p l : Nat) (done : List (Token Atom)) (skip position line : Nat) (cs : List Char) :
    scanFrom (done.map (Token.moved p l)) skip (position + p) (line + l) cs =
      (scanFrom done skip position line cs).moved p l := by
  induction cs generalizing done skip position line with
  | nil =>
    unfold scanFrom Scan.moved
    dsimp only
    rw [List.map_reverse, List.map_cons]
    rfl
  | cons c rest ih =>
    have hposition : position + p + 1 = position + 1 + p := by omega
    cases skip with
    | succ skip => rw [scanFrom_succ, scanFrom_succ, hposition, ih]
    | zero =>
      have hfits := Piece.first_fits c rest
      rw [scanFrom_cons, scanFrom_cons]
      cases hpiece : Piece.first c rest with
      | blank width =>
        dsimp only
        rw [hposition, ih]
      | newline =>
        dsimp only
        rw [hposition, show line + l + 1 = line + 1 + l by omega, ih]
      | token kind width =>
        rw [hpiece] at hfits
        dsimp only
        rw [hposition, ← ih, List.map_cons]
        unfold Token.moved
        dsimp only
        rw [hfits.1, if_neg Bool.false_ne_true]
        rfl
      | stray =>
        unfold Scan.moved
        dsimp only
        rw [List.map_reverse]
        rfl

/-! ## The join -/

/-- The tokens that were scanned end with the end of the input, which is all that comes after an open string. -/
theorem scanFrom_all (done : List (Token Atom)) (position line : Nat) (cs : List Char) :
    scanFrom done cs.length position line cs = ⟨(endOfInput line :: done).reverse, none⟩ := by
  have h := scanFrom_skip done position line cs []
  rw [List.append_nil] at h
  rw [h]
  rfl

/-- Where the scan of a text would end, the scan of a longer one goes on in the next line. -/
theorem scanFrom_append (cs more : List Char) (done : List (Token Atom)) (skip position line : Nat)
    (hskip : skip ≤ cs.length) (herror : (scanFrom done skip position line cs).error = none)
    (hclosed : (scanFrom done skip position line cs).endsOpen = false) :
    ∃ ts last, (scanFrom done skip position line cs).tokens = ts ++ [endOfInput (last : Nat)] ∧
      scanFrom done skip position line (cs ++ '\n' :: more) =
        scanFrom ts.reverse 0 (position + cs.length + 1) (last + 1) more := by
  induction cs generalizing done skip position line with
  | nil =>
    obtain rfl := Nat.le_zero.1 hskip
    refine ⟨done.reverse, line, List.reverse_cons, ?_⟩
    rw [List.reverse_reverse]
    rfl
  | cons c rest ih =>
    have hposition : position + (c :: rest).length + 1 = position + 1 + rest.length + 1 := by
      rw [List.length_cons]
      omega
    rw [hposition, List.cons_append]
    cases skip with
    | succ skip => exact ih done skip (position + 1) line (Nat.le_of_succ_le_succ hskip) herror hclosed
    | zero =>
      have hfits := Piece.first_fits c rest
      rw [scanFrom_cons] at herror hclosed
      rw [scanFrom_cons, scanFrom_cons]
      rcases Piece.first_append c rest more with hopen | hsame
      · -- The text would end inside a string.
        rw [hopen] at hclosed
        unfold Piece.openString at hclosed
        dsimp only at hclosed
        rw [scanFrom_all, List.take_length] at hclosed
        unfold Scan.endsOpen at hclosed
        dsimp only at hclosed
        rw [List.reverse_cons, List.dropLast_concat, List.reverse_cons, List.getLast?_concat] at hclosed
        unfold isOpenString at hclosed
        simp only [String.length_ofList, List.length_cons, beq_self_eq_true] at hclosed
        cases hclosed
      · rw [hsame]
        cases hpiece : Piece.first c rest with
        | blank width =>
          rw [hpiece] at hfits herror hclosed
          exact ih done width (position + 1) line hfits herror hclosed
        | newline =>
          rw [hpiece] at herror hclosed
          exact ih done 0 (position + 1) (line + 1) (Nat.zero_le _) herror hclosed
        | token kind width =>
          rw [hpiece] at hfits herror hclosed
          dsimp only
          rw [List.take_append_of_le_length hfits.2]
          exact ih _ width (position + 1) line hfits.2 herror hclosed
        | stray =>
          rw [hpiece] at herror
          cases herror

/-- **The tokens of a joined text** are those of the first text up to its end, and then those of the second, moved
behind the first and the line break. -/
theorem scan_join {a : String} (b : String) (herror : (scan a).error = none) (hclosed : (scan a).endsOpen = false) :
    ∃ ts last, (scan a).tokens = ts ++ [endOfInput (last : Nat)] ∧
      scan (a ++ "\n" ++ b) = ((scan b).moved (a.length + 1) (last + 1)).after ts := by
  obtain ⟨ts, last, htokens, hjoin⟩ := scanFrom_append a.toList b.toList [] 0 0 0 (Nat.zero_le _) herror hclosed
  refine ⟨ts, last, htokens, ?_⟩
  have hchars : (a ++ "\n" ++ b).toList = a.toList ++ '\n' :: b.toList := by
    rw [String.toList_append, String.toList_append, List.append_assoc]
    rfl
  have hmoved := scanFrom_moved (a.length + 1) (last + 1) [] 0 0 0 b.toList
  rw [List.map_nil, Nat.zero_add, Nat.zero_add] at hmoved
  unfold scan
  rw [hchars, hjoin, scanFrom_done, List.reverse_reverse, Nat.zero_add, String.length_toList, hmoved]

/-- Only the last token of a text that can be scanned is an end of the input. -/
theorem scanFrom_isEof (cs : List Char) (done : List (Token Atom)) (skip position line : Nat)
    (hdone : ∀ t ∈ done, t.kind.isEof = false) {ts : List (Token Atom)} {last : Nat}
    (htokens : (scanFrom done skip position line cs).tokens = ts ++ [endOfInput last]) :
    ∀ t ∈ ts, t.kind.isEof = false := by
  induction cs generalizing done skip position line with
  | nil =>
    unfold scanFrom at htokens
    dsimp only at htokens
    rw [List.reverse_cons] at htokens
    obtain ⟨rfl, -⟩ := List.append_inj' htokens rfl
    intro t ht
    exact hdone t (List.mem_reverse.1 ht)
  | cons c rest ih =>
    cases skip with
    | succ skip => exact ih done skip (position + 1) line hdone htokens
    | zero =>
      have hfits := Piece.first_fits c rest
      rw [scanFrom_cons] at htokens
      cases hpiece : Piece.first c rest with
      | blank width =>
        rw [hpiece] at htokens
        exact ih done width _ _ hdone htokens
      | newline =>
        rw [hpiece] at htokens
        exact ih done 0 _ _ hdone htokens
      | token kind width =>
        rw [hpiece] at hfits htokens
        refine ih _ width _ _ (fun t ht => ?_) htokens
        cases ht with
        | head => exact hfits.1
        | tail _ ht => exact hdone t ht
      | stray =>
        rw [hpiece] at htokens
        dsimp only at htokens
        intro t ht
        have hmem : t ∈ done.reverse := by
          rw [htokens]
          exact List.mem_append_left _ ht
        exact hdone t (List.mem_reverse.1 hmem)

theorem scan_isEof {source : String} {ts : List (Token Atom)} {last : Nat}
    (htokens : (scan source).tokens = ts ++ [endOfInput last]) : ∀ t ∈ ts, t.kind.isEof = false :=
  scanFrom_isEof source.toList [] 0 0 0 nofun htokens

/-- Where the scan of a text fails, that of a longer one fails in the same way. -/
theorem scanFrom_append_of_error (cs more : List Char) (done : List (Token Atom)) (skip position line : Nat)
    (hskip : skip ≤ cs.length) (herror : (scanFrom done skip position line cs).error ≠ none) :
    scanFrom done skip position line (cs ++ '\n' :: more) = scanFrom done skip position line cs := by
  induction cs generalizing done skip position line with
  | nil =>
    obtain rfl := Nat.le_zero.1 hskip
    exact absurd rfl herror
  | cons c rest ih =>
    cases skip with
    | succ skip => exact ih done skip (position + 1) line (Nat.le_of_succ_le_succ hskip) herror
    | zero =>
      have hfits := Piece.first_fits c rest
      rw [scanFrom_cons] at herror
      rw [List.cons_append, scanFrom_cons, scanFrom_cons]
      rcases Piece.first_append c rest more with hopen | hsame
      · -- An open string reaches to the end, so nothing can fail after it.
        rw [hopen] at herror
        unfold Piece.openString at herror
        dsimp only at herror
        rw [scanFrom_all] at herror
        exact absurd rfl herror
      · rw [hsame]
        cases hpiece : Piece.first c rest with
        | blank width =>
          rw [hpiece] at hfits herror
          exact ih done width (position + 1) line hfits herror
        | newline =>
          rw [hpiece] at herror
          exact ih done 0 (position + 1) (line + 1) (Nat.zero_le _) herror
        | token kind width =>
          rw [hpiece] at hfits herror
          dsimp only
          rw [List.take_append_of_le_length hfits.2]
          exact ih _ width (position + 1) line hfits.2 herror
        | stray => rfl

theorem scan_join_of_error {a : String} (b : String) (herror : (scan a).error ≠ none) :
    scan (a ++ "\n" ++ b) = scan a := by
  have hchars : (a ++ "\n" ++ b).toList = a.toList ++ '\n' :: b.toList := by
    rw [String.toList_append, String.toList_append, List.append_assoc]
    rfl
  unfold scan at herror ⊢
  rw [hchars, scanFrom_append_of_error _ _ _ _ _ _ (Nat.zero_le _) herror]

/-- **The scan of a text and another in the next line.** If the first can be scanned and leaves no string open, there
are its tokens without the mark for the end, and then those of the second: each starts behind the first text and the
line break, but for the mark for the end, and is on a line that many further on; and the second fails as it does alone,
on a line that many further on. If the first fails, the two together do, with the same tokens and the same error. -/
theorem scan_lines (a b : String) :
    ((scan a).error = none → (scan a).endsOpen = false →
      ∃ ts last, (scan a).tokens = ts ++ [endOfInput (last : Nat)] ∧ (∀ t ∈ ts, t.kind.isEof = false) ∧
        (scan (a ++ "\n" ++ b)).tokens = ts ++ (scan b).tokens.map (moved (a.length + 1) (last + 1)) ∧
        (scan (a ++ "\n" ++ b)).error = (scan b).error.map fun e => ⟨e.line + (last + 1 : Nat), e.cause⟩) ∧
      ∀ e, (scan a).error = some e → scan (a ++ "\n" ++ b) = ⟨(scan a).tokens, some e⟩ := by
  refine ⟨fun herror hclosed => ?_, fun e herror => ?_⟩
  · obtain ⟨ts, last, htokens, hjoin⟩ := scan_join b herror hclosed
    exact ⟨ts, last, htokens, scan_isEof htokens, congrArg Scan.tokens hjoin, congrArg Scan.error hjoin⟩
  · rw [scan_join_of_error b (by simp [herror]), ← herror]

/-- A text that ends with a boolean and a comment, and one with a string over two lines and a character that nothing
starts with. -/
def commentAndStringExample : String × String := ("x #t ; (\x22", "'\x22\n\x22 |")

theorem scan_lines_commentAndString :
    let (a, b) := commentAndStringExample
    (scan a).error = none ∧ (scan a).endsOpen = false ∧
      (scan (a ++ "\n" ++ b)).error = some ⟨1, .unknownCharacter '|'⟩ ∧
      scan (b ++ "\n" ++ a) = scan b := by
  obtain ⟨hjoin, -⟩ := scan_lines commentAndStringExample.1 commentAndStringExample.2
  obtain ⟨-, hfails⟩ := scan_lines commentAndStringExample.2 commentAndStringExample.1
  obtain ⟨ts, last, htokens, -, -, herror⟩ := hjoin rfl rfl
  have hends : (scan commentAndStringExample.1).tokens = [_, _] ++ [endOfInput (0 : Nat)] := rfl
  obtain ⟨-, hlast⟩ := List.append_inj' (hends.symm.trans htokens) rfl
  cases hlast
  exact ⟨rfl, rfl, herror, hfails _ rfl⟩

end MiniScheme.Token
