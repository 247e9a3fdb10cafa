import MiniScheme.Proofs.Token.Pieces

/-!
# Scanning a text piece by piece

* `ScansAs text p` — wherever the text stands, it is scanned as tokens of which `p` holds. What follows it must not go
  on with a number that it may end with.
* `ScansAs.piece`, `ScansAs.blank`, `ScansAs.append` — what one piece, a blank or another text adds to the tokens.
* `scan_scansAs` — the scan of a whole text.
-/

namespace MiniScheme.Token

/-- What follows a text does not go on with a number. -/
def StopsNumber (rest : List Char) : Prop := rest.takeWhile isNumberChar = []

theorem stopsNumber_nil : StopsNumber [] := rfl

theorem stopsNumber_cons {c : Char} (hc : isNumberChar c = false) (rest : List Char) : StopsNumber (c :: rest) :=
  List.takeWhile_cons_of_neg (by rw [hc]; exact Bool.false_ne_true)

/-- Wherever the text stands, it is scanned as tokens of which `p` holds. -/
def ScansAs (text : List Char) (p : List (Token Atom) → Prop) : Prop :=
  ∀ (position line : Nat) (rest : List Char), StopsNumber rest →
    ∃ ts, p ts ∧ (∀ t ∈ ts, t.kind.isEof = false) ∧
      ∀ done, scanFrom done 0 position line (text ++ rest) =
        scanFrom (ts.reverse ++ done) 0 (position + text.length) line rest

/-- A piece that is a token is passed over as a whole. -/
theorem scanFrom_piece {c : Char} {cs rest : List Char} {kind : Kind Atom}
    (hfirst : Piece.first c (cs ++ rest) = .token kind cs.length) (done : List (Token Atom)) (position line : Nat) :
    scanFrom done 0 position line (c :: (cs ++ rest)) =
      scanFrom (⟨kind, position, String.ofList (c :: cs), line⟩ :: done) 0 (position + 1 + cs.length) line rest := by
  rw [scanFrom_cons, hfirst]
  dsimp only
  rw [List.take_left, scanFrom_skip]

namespace ScansAs

variable {text : List Char} {p q : List (Token Atom) → Prop}

theorem nil : ScansAs [] (· = []) := fun _ _ _ _ => ⟨[], rfl, List.forall_mem_nil _, fun _ => rfl⟩

theorem imp (h : ScansAs text p) (hpq : ∀ ts, p ts → q ts) : ScansAs text q := by
  intro position line rest hrest
  obtain ⟨ts, hts, hkinds, hscan⟩ := h position line rest hrest
  exact ⟨ts, hpq ts hts, hkinds, hscan⟩

/-- A blank adds nothing. -/
theorem blank (h : ScansAs text p) : ScansAs (' ' :: text) p := by
  intro position line rest hrest
  obtain ⟨ts, hts, hkinds, hscan⟩ := h (position + 1) line rest hrest
  refine ⟨ts, hts, hkinds, fun done => ?_⟩
  have hlength : position + 1 + text.length = position + (' ' :: text).length := by
    rw [List.length_cons]
    omega
  rw [← hlength, ← hscan done]
  rfl

/-- A piece in front adds its token. -/
theorem piece {c : Char} {cs : List Char} {kind : Kind Atom}
    (hfirst : ∀ rest, StopsNumber rest → Piece.first c (cs ++ (text ++ rest)) = .token kind cs.length)
    (hkind : kind.isEof = false) (h : ScansAs text p) :
    ScansAs (c :: (cs ++ text)) fun ts =>
      ∃ t us, ts = t :: us ∧ t.kind = kind ∧ t.lexeme = String.ofList (c :: cs) ∧ p us := by
  intro position line rest hrest
  obtain ⟨us, hus, hkinds, hscan⟩ := h (position + 1 + cs.length) line rest hrest
  refine ⟨⟨kind, position, String.ofList (c :: cs), line⟩ :: us, ⟨_, us, rfl, rfl, rfl, hus⟩, ?_, fun done => ?_⟩
  · intro t ht
    rcases List.mem_cons.1 ht with rfl | ht
    · exact hkind
    · exact hkinds t ht
  · have hlength : position + 1 + cs.length + text.length = position + (c :: (cs ++ text)).length := by
      rw [List.length_cons, List.length_append]
      omega
    rw [List.cons_append, List.append_assoc, scanFrom_piece (hfirst rest hrest), hscan, hlength, List.reverse_cons,
      List.append_assoc, List.singleton_append]

/-- A character in front that is a token whatever follows it. -/
theorem mark {c : Char} {kind : Kind Atom} (hfirst : ∀ rest, Piece.first c rest = .token kind 0)
    (hkind : kind.isEof = false) (h : ScansAs text p) :
    ScansAs (c :: text) fun ts => ∃ t us, ts = t :: us ∧ t.kind = kind ∧ p us := by
  have hpiece (rest : List Char) (_ : StopsNumber rest) :
      Piece.first c ([] ++ (text ++ rest)) = .token kind 0 := hfirst _
  refine (h.piece hpiece hkind).imp ?_
  rintro ts ⟨t, us, rfl, ht, -, hus⟩
  exact ⟨t, us, rfl, ht, hus⟩

/-- A piece alone is its token. -/
theorem single {c : Char} {cs : List Char} {kind : Kind Atom}
    (hfirst : ∀ rest, StopsNumber rest → Piece.first c (cs ++ rest) = .token kind cs.length)
    (hkind : kind.isEof = false) : ScansAs (c :: cs) fun ts => ∃ t, ts = [t] ∧ t.kind = kind := by
  have hpiece (rest : List Char) (hrest : StopsNumber rest) :
      Piece.first c (cs ++ ([] ++ rest)) = .token kind cs.length := hfirst rest hrest
  have h := nil.piece hpiece hkind
  rw [List.append_nil] at h
  refine h.imp ?_
  rintro ts ⟨t, us, rfl, ht, -, rfl⟩
  exact ⟨t, rfl, ht⟩

/-- A text behind one that does not go on with a number adds its tokens. -/
theorem append {more : List Char} (h : ScansAs text p) (hmore : ScansAs more q)
    (hstop : ∀ rest, StopsNumber rest → StopsNumber (more ++ rest)) :
    ScansAs (text ++ more) fun ts => ∃ us vs, ts = us ++ vs ∧ p us ∧ q vs := by
  intro position line rest hrest
  obtain ⟨us, hus, hkinds, hscan⟩ := h position line (more ++ rest) (hstop rest hrest)
  obtain ⟨vs, hvs, hkinds', hscan'⟩ := hmore (position + text.length) line rest hrest
  refine ⟨us ++ vs, ⟨us, vs, rfl, hus, hvs⟩, ?_, fun done => ?_⟩
  · intro t ht
    rcases List.mem_append.1 ht with ht | ht
    · exact hkinds t ht
    · exact hkinds' t ht
  · rw [List.append_assoc, hscan, hscan', List.reverse_append, List.append_assoc, List.length_append, Nat.add_assoc]

end ScansAs

/-- **The scan of a whole text** has its tokens and the mark for the end. -/
theorem scan_scansAs {source : String} {p : List (Token Atom) → Prop} (h : ScansAs source.toList p) :
    ∃ ts, p ts ∧ (∀ t ∈ ts, t.kind.isEof = false) ∧ scan source = ⟨ts ++ [endOfInput (0 : Nat)], none⟩ := by
  obtain ⟨ts, hts, hkinds, hscan⟩ := h 0 0 [] stopsNumber_nil
  refine ⟨ts, hts, hkinds, ?_⟩
  unfold scan
  rw [← List.append_nil source.toList, hscan []]
  unfold scanFrom
  rw [List.append_nil, List.reverse_cons, List.reverse_reverse]

/-! ## Pieces -/

namespace Piece

/-- The letter behind the sign decides which boolean it is. -/
theorem first_boolean (b : Bool) (rest : List Char) :
    first '#' ((if b then 't' else 'f') :: rest) = .token (.boolean (.boolean b)) 1 := by
  cases b <;> rfl

/-- A word that a blank follows is one symbol. -/
theorem first_quote (rest : List Char) : first 'q' ("uote".toList ++ ' ' :: rest) = .token .symbol 4 := by
  have hq : first 'q' ("uote".toList ++ ' ' :: rest) =
    .token .symbol (("uote".toList ++ ' ' :: rest).takeWhile isSymbolChar).length := rfl
  rw [hq, takeWhile_append_stop (by decide)]
  rfl

/-- A digit starts a number. -/
theorem first_digit {c : Char} (hc : c.isDigit = true) (rest : List Char) : first c rest = numberRun c rest := by
  have hne {d : Char} (hd : d.isDigit = false) : c ≠ d := by
    rintro rfl
    rw [hc] at hd
    cases hd
  have hblank : ¬ (c = ' ' ∨ c = '\r' ∨ c = '\t') := by
    rintro (h | h | h)
    · exact hne (by decide) h
    · exact hne (by decide) h
    · exact hne (by decide) h
  unfold first
  rw [if_neg (hne (by decide)), if_neg (hne (by decide)), if_neg hblank, if_neg (hne (by decide)),
    if_neg (hne (by decide)), if_neg (hne (by decide)), if_neg (hne (by decide)), if_neg (hne (by decide)),
    if_neg (hne (by decide)), if_neg (hne (by decide)), if_pos hc]

/-- A run of digits and points reaches as far as there are any. -/
theorem first_number {c : Char} {cs rest : List Char} (hc : c.isDigit = true)
    (hcs : ∀ d ∈ cs, isNumberChar d = true) (hrest : StopsNumber rest) :
    first c (cs ++ rest) = .token (.number (.number (Numeral.read (c :: cs)))) cs.length := by
  have hrun : (cs ++ rest).takeWhile isNumberChar = cs := by
    rw [List.takeWhile_append_of_pos hcs, hrest, List.append_nil]
  rw [first_digit hc]
  unfold numberRun
  rw [hrun]

theorem first_leftBracket (rest : List Char) : first '(' rest = .token .leftBracket 0 := rfl

theorem first_rightBracket (rest : List Char) : first ')' rest = .token .rightBracket 0 := rfl

theorem first_tick (rest : List Char) : first '\x27' rest = .token .quote 0 := rfl

end Piece

end MiniScheme.Token
