import MiniScheme.Proofs.Numeral.RoundTrip

/-!
# Decimal numerals

* `Form`, `Form.WellFormed` — the pieces of a numeral, and which of them make one up.
* `Form.text`, `Form.value` — how it is written, and the number it denotes.
* `Form.text_inj` — a text is that of one numeral at most, so it denotes one number at most.
-/

namespace MiniScheme.Numeral

open Binary64 (signed)

/-! ## Digits in front of a text -/

/-- A text that cannot go on with digits. -/
def NoDigitHead (cs : List Char) : Prop := ∀ c ∈ cs.head?, c.isDigit = false

theorem noDigitHead_nil : NoDigitHead [] := by
  intro c hc
  cases hc

theorem noDigitHead_cons {c : Char} {cs : List Char} (h : c.isDigit = false) : NoDigitHead (c :: cs) := by
  intro c' hc
  cases hc
  exact h

/-- Digits end where the text behind them begins. -/
theorem digits_append_inj {ds ds' cs cs' : List Char} (hds : AllDigits ds) (hds' : AllDigits ds')
    (hcs : NoDigitHead cs) (hcs' : NoDigitHead cs') (h : ds ++ cs = ds' ++ cs') : ds = ds' ∧ cs = cs' := by
  have hspan {ds cs : List Char} (hds : AllDigits ds) (hcs : NoDigitHead cs) :
      (ds ++ cs).takeWhile Char.isDigit = ds := by
    rw [List.takeWhile_append_of_pos hds]
    cases cs with
    | nil => exact List.append_nil ds
    | cons c cs =>
      have hc : c.isDigit = false := hcs c rfl
      rw [List.takeWhile_cons_of_neg (by rw [hc]; exact Bool.false_ne_true), List.append_nil]
  have hsame : ds = ds' := by rw [← hspan hds hcs, h, hspan hds' hcs']
  subst hsame
  exact ⟨rfl, List.append_cancel_left h⟩

/-! ## Numerals -/

/-- An exponent, its sign always being written. -/
structure Power where
  negative : Bool
  digits : List Char
  deriving DecidableEq

/-- The pieces of a numeral. -/
structure Form where
  negative : Bool
  whole : List Char
  fraction : Option (List Char)
  power : Option Power
  deriving DecidableEq

namespace Power

/-- The text of an exponent. -/
def text (p : Power) : List Char := 'e' :: (if p.negative then '-' else '+') :: p.digits

/-- The exponent as a number. -/
def value (p : Power) : ℤ := signed p.negative (natOfDigits p.digits)

/-- Digits without a leading zero. -/
structure WellFormed (p : Power) : Prop where
  digits : AllDigits p.digits
  head : ∃ c ∈ p.digits.head?, c ≠ '0'

end Power

namespace Form

/-- What stands behind the whole part. -/
def tail (f : Form) : List Char := f.fraction.elim [] ('.' :: ·) ++ f.power.elim [] Power.text

/-- The text without the sign. -/
def magnitude (f : Form) : List Char := f.whole ++ f.tail

/-- The text: a sign if the number is negative, digits, a point with digits, and an exponent. -/
def text (f : Form) : List Char := (if f.negative then ['-'] else []) ++ f.magnitude

/-- The digits behind the point. -/
def places (f : Form) : List Char := f.fraction.getD []

/-- The number without the sign. -/
def size (f : Form) : ℚ :=
  natOfDigits (f.whole ++ f.places) / 10 ^ f.places.length * 10 ^ (f.power.elim 0 Power.value)

/-- The number that a numeral denotes. -/
def value (f : Form) : ℚ := if f.negative then -f.size else f.size

/-- There is a digit in front of the point, one behind it if there is a point, and one in the exponent. -/
structure WellFormed (f : Form) : Prop where
  whole_ne : f.whole ≠ []
  whole : AllDigits f.whole
  fraction_ne : f.fraction ≠ some []
  places : AllDigits f.places
  power : ∀ p ∈ f.power, p.WellFormed

/-! ## Reading a numeral in one way only -/

variable {f g : Form}

theorem noDigitHead_power (p : Option Power) : NoDigitHead (p.elim [] Power.text) := by
  cases p with
  | none => exact noDigitHead_nil
  | some p => exact noDigitHead_cons rfl

theorem noDigitHead_tail (f : Form) : NoDigitHead f.tail := by
  unfold tail
  cases f.fraction with
  | none => exact noDigitHead_power f.power
  | some ds => exact noDigitHead_cons rfl

theorem power_inj {p q : Option Power} (h : p.elim [] Power.text = q.elim [] Power.text) : p = q := by
  have hsign {b b' : Bool} (hchar : (if b then '-' else '+') = if b' then '-' else '+') : b = b' := by
    cases b <;> cases b' <;> first | rfl | exact absurd hchar (by decide)
  cases p with
  | none =>
    cases q with
    | none => rfl
    | some q => cases h
  | some p =>
    cases q with
    | none => cases h
    | some q =>
      obtain ⟨hchar, hdigits⟩ := List.cons.inj (List.cons.inj h).2
      cases p
      cases q
      congr
      exact hsign hchar

/-- The text behind the whole part has one reading. -/
theorem tail_inj (hf : AllDigits f.places) (hg : AllDigits g.places) (h : f.tail = g.tail) :
    f.fraction = g.fraction ∧ f.power = g.power := by
  have hpoint {ds : List Char} {p q : Option Power} :
      '.' :: ds ++ p.elim [] Power.text ≠ q.elim [] Power.text := by
    intro hsame
    cases q with
    | none => cases hsame
    | some q => exact absurd (List.cons.inj hsame).1 (by decide)
  unfold tail at h
  unfold places at hf hg
  cases hfraction : f.fraction with
  | none =>
    cases hfraction' : g.fraction with
    | none =>
      rw [hfraction, hfraction'] at h
      exact ⟨rfl, power_inj h⟩
    | some ds =>
      rw [hfraction, hfraction'] at h
      exact absurd h.symm hpoint
  | some ds =>
    cases hfraction' : g.fraction with
    | none =>
      rw [hfraction, hfraction'] at h
      exact absurd h hpoint
    | some ds' =>
      rw [hfraction] at hf
      rw [hfraction'] at hg
      rw [hfraction, hfraction'] at h
      obtain ⟨rfl, hpower⟩ := digits_append_inj hf hg (noDigitHead_power _) (noDigitHead_power _) (List.cons.inj h).2
      exact ⟨rfl, power_inj hpower⟩

/-- What stands behind the sign starts with a digit. -/
theorem WellFormed.head (hf : f.WellFormed) : ∃ c cs, f.magnitude = c :: cs ∧ c.isDigit = true := by
  obtain ⟨c, rest, hwhole⟩ := List.exists_cons_of_ne_nil hf.whole_ne
  refine ⟨c, rest ++ f.tail, ?_, hf.whole c (by rw [hwhole]; exact List.mem_cons_self)⟩
  unfold magnitude
  rw [hwhole]
  rfl

theorem WellFormed.magnitude_ne (hf : f.WellFormed) {c : Char} (hc : c.isDigit = false) (cs : List Char) :
    f.magnitude ≠ c :: cs := by
  obtain ⟨c', rest, hmagnitude, hdigit⟩ := hf.head
  rw [hmagnitude]
  intro h
  rw [(List.cons.inj h).1, hc] at hdigit
  exact Bool.false_ne_true hdigit

/-- **A text is that of one numeral at most.** -/
theorem text_inj (hf : f.WellFormed) (hg : g.WellFormed) (h : f.text = g.text) : f = g := by
  have hsign : f.negative = g.negative ∧ f.magnitude = g.magnitude := by
    unfold text at h
    cases hneg : f.negative <;> cases hneg' : g.negative <;> rw [hneg, hneg'] at h
    · exact ⟨rfl, h⟩
    · exact absurd h (hf.magnitude_ne rfl _)
    · exact absurd h.symm (hg.magnitude_ne rfl _)
    · exact ⟨rfl, (List.cons.inj h).2⟩
  obtain ⟨hnegative, hmagnitude⟩ := hsign
  obtain ⟨hwhole, htail⟩ :=
    digits_append_inj hf.whole hg.whole (noDigitHead_tail f) (noDigitHead_tail g) hmagnitude
  obtain ⟨hfraction, hpower⟩ := tail_inj hf.places hg.places htail
  cases f
  cases g
  cases hnegative
  cases hwhole
  cases hfraction
  cases hpower
  rfl

end Form
end MiniScheme.Numeral
