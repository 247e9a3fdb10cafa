import MiniScheme.Proofs.Numeral.Form

/-!
# The numerals of printed numbers

* `Writes` — a text is a numeral without a sign, for a quotient, with an exponent or without one.
* `writes_magnitude` — the text of a magnitude, whose quotient rounds back to it.
-/

namespace MiniScheme.Numeral

open Binary64 (roundedBits unitsPerOne Decimal shortest bitsOf unitsOfBits IsFinite Nearest value signed parts places)

/-! ## Texts without a sign -/

/-- A text that is a numeral for the quotient `n / d`, with an exponent if `power` says so. -/
def Writes (cs : List Char) (n d : Nat) (power : Bool) : Prop :=
  ∃ f : Form, f.WellFormed ∧ f.negative = false ∧ f.magnitude = cs ∧ f.size = n / d ∧ f.power.isSome = power

theorem digit_lt {c : Char} (h : c.isDigit = true) : c.toNat - 48 < 10 := by
  have hupper : c.toNat ≤ '9'.toNat := (Char.isDigit_iff_toNat.1 h).2
  have hnine : '9'.toNat = 57 := rfl
  omega

/-- So many digits make a number below that power of ten. -/
theorem natOfDigits_lt {ds : List Char} (hds : AllDigits ds) : natOfDigits ds < 10 ^ ds.length := by
  induction ds using List.reverseRecOn with
  | nil => exact Nat.one_pos
  | append_singleton ds c ih =>
    have hlow := ih fun c' hc => hds c' (List.mem_append_left _ hc)
    have hdigit := digit_lt (hds c (List.mem_append_right _ List.mem_cons_self))
    have hvalue : natOfDigits (ds ++ [c]) = 10 * natOfDigits ds + (c.toNat - 48) := by
      unfold natOfDigits
      rw [List.foldl_append, List.foldl_cons, List.foldl_nil]
    rw [hvalue, List.length_append, List.length_singleton, Nat.pow_succ]
    omega

/-- The digits of a number that is not zero do not start with a zero. -/
theorem head_toDigits {n : Nat} (h : n ≠ 0) : ∃ c ∈ (Nat.toDigits 10 n).head?, c ≠ '0' := by
  obtain ⟨hpos, hlow, -⟩ := Decimal.length_spec h
  have hlength : Decimal.length n = (Nat.toDigits 10 n).length := if_neg h
  have hvalue := natOfDigits_toDigits n
  have hdigits := allDigits_toDigits n
  rw [hlength] at hpos hlow
  generalize Nat.toDigits 10 n = ds at *
  cases ds with
  | nil => exact absurd hpos (Nat.lt_irrefl 0)
  | cons c ds =>
    refine ⟨c, rfl, ?_⟩
    rintro rfl
    have hsame : natOfDigits ('0' :: ds) = natOfDigits ds := natOfDigits_zeros_append 1 ds
    have hless := natOfDigits_lt fun c hc => hdigits c (List.mem_cons_of_mem _ hc)
    rw [List.length_cons, Nat.add_sub_cancel, ← hvalue, hsame] at hlow
    omega

/-- The digits of a whole number. -/
theorem writes_digits (n : Nat) : Writes (digits n).toList n 1 false := by
  refine ⟨⟨false, Nat.toDigits 10 n, none, none⟩, ⟨Nat.toDigits_ne_nil, allDigits_toDigits n, nofun, nofun, nofun⟩,
    rfl, ?_, ?_, rfl⟩
  · unfold digits
    rw [String.toList_ofList]
    exact List.append_nil _
  · unfold Form.size Form.places
    simp only [Option.getD_none, List.append_nil, natOfDigits_toDigits, List.length_nil, pow_zero, Option.elim_none,
      zpow_zero, mul_one, Nat.cast_one]

/-- A numeral that does not end with a point. -/
theorem writes_spelled {cs : List Char} {n places : Nat} (h : Spelled cs n places) (hlast : cs.getLast? ≠ some '.') :
    Writes cs n (10 ^ places) false := by
  cases h with
  | whole hne hds =>
    refine ⟨⟨false, cs, none, none⟩, ⟨hne, hds, nofun, nofun, nofun⟩, rfl, List.append_nil _, ?_, rfl⟩
    unfold Form.size Form.places
    simp
  | @point ds fs hne hds hfs =>
    refine ⟨⟨false, ds, some fs, none⟩, ⟨hne, hds, ?_, hfs, nofun⟩, rfl, ?_, ?_, rfl⟩
    · intro hnone
      rw [Option.some.inj hnone, List.getLast?_append] at hlast
      exact hlast rfl
    · show ds ++ ('.' :: fs ++ []) = _
      rw [List.append_nil]
    · unfold Form.size Form.places
      simp

/-! ## Digits in positions -/

/-- Digits in front of nothing but digits end with a digit. -/
theorem getLast?_append_digits (cs : List Char) {ds : List Char} (hne : ds ≠ []) (hds : AllDigits ds) :
    (cs ++ ds).getLast? ≠ some '.' := by
  rw [List.getLast?_append_of_ne_nil _ hne]
  intro hlast
  exact absurd (hds '.' (List.mem_of_getLast? hlast)) (by decide)

/-- Digits in positions do not end with a point. -/
theorem getLast?_positions {ds : List Char} (hne : ds ≠ []) (hds : AllDigits ds) (exponent : ℤ) :
    (printed.positions ds exponent).toList.getLast? ≠ some '.' := by
  unfold Notation.positions
  split
  · rw [String.toList_append, String.toList_ofList]
    exact getLast?_append_digits _ hne hds
  · dsimp only
    split
    · have hmark : printed.wholeMark.toList = [] := rfl
      rw [String.toList_append, hmark, List.append_nil, String.toList_append, String.toList_ofList, toList_zeros]
      exact getLast?_append_digits [] (List.append_ne_nil_of_left_ne_nil hne _) (hds.append (allDigits_zeros _))
    · rename_i hbeyond
      rw [String.toList_append, String.toList_ofList]
      apply getLast?_append_digits
      · rw [List.ne_nil_iff_length_pos, List.length_drop]
        omega
      · exact fun c hc => hds c (List.mem_of_mem_drop hc)

/-- The quotient of a decimal, with the digits that it drops put behind its digits or taken from its places. -/
theorem quotient_eq (n dropped places : Nat) :
    ((n * 10 ^ (dropped - places) : Nat) : ℚ) / (10 ^ (places - dropped) : Nat)
      = (n * 10 ^ dropped : Nat) / (10 ^ places : Nat) := by
  have hpos (k : Nat) : ((10 ^ k : Nat) : ℚ) ≠ 0 := by exact_mod_cast (Nat.pow_pos (by decide)).ne'
  rw [div_eq_div_iff (hpos _) (hpos _)]
  have hsame : n * 10 ^ (dropped - places) * 10 ^ places = n * 10 ^ dropped * 10 ^ (places - dropped) := by
    rw [mul_assoc, mul_assoc, ← pow_add, ← pow_add]
    congr 2
    omega
  exact_mod_cast hsame

theorem writes_positions (d : Decimal) (hd : d.digits ≠ 0) :
    Writes (printed.positions (Nat.toDigits 10 d.digits) d.exponent).toList (d.digits * 10 ^ d.dropped) (10 ^ places)
      false := by
  obtain ⟨f, hf, hnegative, hmagnitude, hsize, hpower⟩ :=
    writes_spelled (positions_spelled d hd) (getLast?_positions Nat.toDigits_ne_nil (allDigits_toDigits _) _)
  refine ⟨f, hf, hnegative, hmagnitude, ?_, hpower⟩
  rw [hsize]
  exact quotient_eq d.digits d.dropped places

/-! ## Digits with an exponent -/

/-- The size of digits with a point after the first and an exponent. -/
theorem scientific_quotient (n rest dropped places : Nat) {exponent : ℤ}
    (h : exponent = (rest + 1 + dropped : Nat) - 1 - (places : ℤ)) :
    (n : ℚ) / 10 ^ rest * 10 ^ exponent = (n * 10 ^ dropped : Nat) / (10 ^ places : Nat) := by
  have hten : (10 : ℚ) ≠ 0 := by norm_num
  have hexponent : exponent = rest + dropped - places := by omega
  rw [hexponent, zpow_sub₀ hten, zpow_add₀ hten, zpow_natCast, zpow_natCast, zpow_natCast]
  push_cast
  field_simp

/-- The exponent as it is written. -/
def powerOf (exponent : ℤ) : Power := ⟨decide (exponent < 0), Nat.toDigits 10 exponent.natAbs⟩

theorem powerOf_value (exponent : ℤ) : (powerOf exponent).value = exponent := by
  unfold Power.value powerOf
  dsimp only
  rw [natOfDigits_toDigits, Binary64.signed_natAbs]

theorem powerOf_wellFormed {exponent : ℤ} (h : exponent ≠ 0) : (powerOf exponent).WellFormed :=
  ⟨allDigits_toDigits _, head_toDigits (Int.natAbs_ne_zero.2 h)⟩

/-- The text of digits with an exponent. -/
theorem toList_scientific (c : Char) (rest : List Char) (exponent : ℤ) :
    (printed.scientific (c :: rest) exponent).toList
      = c :: ((if rest = [] then [] else '.' :: rest) ++ (powerOf exponent).text) := by
  have hpower : (digits exponent.natAbs).toList = Nat.toDigits 10 exponent.natAbs := String.toList_ofList
  have hwidth : printed.exponentWidth - (digits exponent.natAbs).length = 0 := by
    have hpos : 0 < (Nat.toDigits 10 exponent.natAbs).length := Nat.length_toDigits_pos
    have hone : printed.exponentWidth = 1 := rfl
    rw [← String.length_toList, hpower]
    omega
  have hsign : (if exponent < 0 then "e-" else "e+").toList
      = ['e', if (powerOf exponent).negative then '-' else '+'] := by
    unfold powerOf
    by_cases hneg : exponent < 0
    · rw [if_pos hneg, decide_eq_true hneg]
      rfl
    · rw [if_neg hneg, decide_eq_false hneg]
      rfl
  unfold Notation.scientific
  dsimp only
  rw [hwidth, String.toList_append, String.toList_append, String.toList_append, hpower, hsign, toList_zeros]
  cases rest with
  | nil =>
    dsimp only
    rw [String.toList_ofList]
    rfl
  | cons c' rest =>
    dsimp only
    rw [String.toList_append, String.toList_append, String.toList_ofList, String.toList_ofList,
      String.toList_ofList, if_neg (List.cons_ne_nil c' rest), List.replicate_zero, List.append_nil,
      List.append_assoc, List.append_assoc]
    rfl

theorem writes_scientific (d : Decimal) (hd : d.digits ≠ 0) (hexponent : d.exponent ≠ 0) :
    Writes (printed.scientific (Nat.toDigits 10 d.digits) d.exponent).toList (d.digits * 10 ^ d.dropped) (10 ^ places)
      true := by
  have hlength : Decimal.length d.digits = (Nat.toDigits 10 d.digits).length := if_neg hd
  have hstarts : d.exponent = (Decimal.length d.digits + d.dropped : Nat) - 1 - (places : ℤ) := rfl
  have hvalue := natOfDigits_toDigits d.digits
  have hdigits := allDigits_toDigits d.digits
  have hne : Nat.toDigits 10 d.digits ≠ [] := Nat.toDigits_ne_nil
  have hwellFormed := powerOf_wellFormed hexponent
  rw [hlength] at hstarts
  generalize d.exponent = exponent at *
  generalize Nat.toDigits 10 d.digits = ds at *
  obtain ⟨c, rest, rfl⟩ := List.exists_cons_of_ne_nil hne
  have hplaces : (if rest = [] then none else some rest : Option (List Char)).getD [] = rest := by
    split <;> simp_all
  refine ⟨⟨false, [c], if rest = [] then none else some rest, some (powerOf exponent)⟩, ⟨nofun, ?_, ?_, ?_, ?_⟩, rfl,
    ?_, ?_, rfl⟩
  · exact fun c' hc => hdigits c' (List.mem_cons.2 (.inl (List.mem_singleton.1 hc)))
  · dsimp only
    split <;> simp_all
  · unfold Form.places
    dsimp only
    rw [hplaces]
    exact fun c' hc => hdigits c' (List.mem_cons_of_mem _ hc)
  · intro p hp
    rw [← Option.some.inj hp]
    exact hwellFormed
  · rw [toList_scientific]
    unfold Form.magnitude Form.tail
    by_cases hnone : rest = []
    · rw [if_pos hnone, if_pos hnone]
      rfl
    · rw [if_neg hnone, if_neg hnone]
      rfl
  · unfold Form.size Form.places
    dsimp only
    rw [hplaces, List.singleton_append, hvalue, Option.elim_some, powerOf_value]
    exact scientific_quotient d.digits rest.length d.dropped places hstarts

/-! ## Printed numbers -/

/-- The magnitudes that are written with an exponent. -/
def NeedsPower (bits : Nat) : Prop := bits < bitsOf 1e-6 ∨ bitsOf 1e21 ≤ bits

instance : DecidablePred NeedsPower := fun bits => inferInstanceAs (Decidable (bits < bitsOf 1e-6 ∨ bitsOf 1e21 ≤ bits))

theorem unitsOfBits_pos {bits : Nat} (hpos : 0 < bits) (hfinite : bits < Binary64.infinityBits) :
    0 < unitsOfBits bits := by
  have hzero : unitsOfBits 0 = 0 := rfl
  rw [← hzero]
  exact (Binary64.unitsOfBits_lt_iff (by omega) hfinite).2 hpos

/-- Units that are whole ones round as whole numbers. -/
theorem roundedBits_whole {bits : Nat} (hfinite : bits < Binary64.infinityBits)
    (hwhole : unitsOfBits bits % unitsPerOne = 0) : roundedBits (unitsOfBits bits / unitsPerOne) 1 = bits := by
  have hsame : roundedBits (unitsOfBits bits / unitsPerOne) 1 = roundedBits (unitsOfBits bits) unitsPerOne := by
    apply Binary64.roundedBits_congr Nat.one_pos Binary64.unitsPerOne_pos
    rw [Nat.div_mul_cancel (Nat.dvd_of_mod_eq_zero hwhole), Nat.mul_one]
  exact hsame.trans (Binary64.roundedBits_unitsOfBits hfinite)

/-- Whole numbers below a sextillion need no exponent. -/
theorem not_needsPower_of_whole {bits : Nat} (hpos : 0 < bits) (hfinite : bits < Binary64.infinityBits)
    (hwhole : unitsOfBits bits % unitsPerOne = 0) (hbelow : unitsOfBits bits / unitsPerOne < Nat.pow 10 21) :
    ¬ NeedsPower bits := by
  have hunits := unitsOfBits_pos hpos hfinite
  have hround := roundedBits_whole hfinite hwhole
  have hone : 1 ≤ unitsOfBits bits / unitsPerOne := by
    rw [Nat.le_div_iff_mul_le Binary64.unitsPerOne_pos, Nat.one_mul]
    exact Nat.le_of_dvd hunits (Nat.dvd_of_mod_eq_zero hwhole)
  rintro (hless | hmore)
  · have hmillionth : bitsOf 1e-6 ≤ roundedBits 1 1 := by decide +kernel
    have hmono := Binary64.roundedBits_mono Nat.one_pos Nat.one_pos (Nat.mul_le_mul_right 1 hone)
    omega
  · have hsextillion : unitsOfBits (bitsOf 1e21) = Nat.pow 10 21 * unitsPerOne := by decide +kernel
    have hlimit : bitsOf 1e21 < Binary64.infinityBits := by decide +kernel
    have hle : unitsOfBits (bitsOf 1e21) ≤ unitsOfBits bits := by
      by_contra hlt
      have := (Binary64.unitsOfBits_lt_iff hfinite hlimit).1 (Nat.lt_of_not_le hlt)
      omega
    rw [hsextillion, ← Nat.le_div_iff_mul_le Binary64.unitsPerOne_pos] at hle
    exact Nat.not_le.2 hbelow hle

/-- **The text of a magnitude is a numeral whose quotient rounds back to it.** -/
theorem writes_magnitude {bits : Nat} (hpos : 0 < bits) (hfinite : bits < Binary64.infinityBits) :
    ∃ n d, 0 < d ∧ roundedBits n d = bits ∧
      Writes (printed.magnitude (unitsOfBits bits)).toList n d (decide (NeedsPower bits)) := by
  obtain ⟨hdigits, hleast, hgreatest⟩ := exponent_shortest hpos hfinite
  unfold Notation.magnitude
  dsimp only
  split
  · rename_i hexact
    obtain ⟨-, hwhole, hbelow⟩ := hexact
    have hmark : digits (unitsOfBits bits / unitsPerOne) ++ printed.wholeMark
        = digits (unitsOfBits bits / unitsPerOne) := String.append_empty
    refine ⟨unitsOfBits bits / unitsPerOne, 1, Nat.one_pos, roundedBits_whole hfinite hwhole, ?_⟩
    rw [decide_eq_false (not_needsPower_of_whole hpos hfinite hwhole hbelow), hmark]
    exact writes_digits _
  · have hbits : roundedBits ((shortest (unitsOfBits bits)).digits * 10 ^ (shortest (unitsOfBits bits)).dropped)
        (10 ^ places) = bits := by
      refine Eq.trans ?_ ((Binary64.shortest_bits _).trans (Binary64.roundedBits_unitsOfBits hfinite))
      rw [Decimal.bits_eq]
      generalize places = l
      rfl
    refine ⟨_, 10 ^ places, Nat.pow_pos (by decide), hbits, ?_⟩
    split
    · rename_i hpositions
      have hnone : ¬ NeedsPower bits := by
        rintro (hless | hmore)
        · exact Nat.not_le.2 hless (hleast.1 hpositions.1)
        · exact Nat.not_lt.2 hmore (hgreatest.1 hpositions.2)
      rw [decide_eq_false hnone]
      exact writes_positions _ hdigits
    · rename_i hpositions
      have hsome : NeedsPower bits := by
        by_contra hnone
        unfold NeedsPower at hnone
        exact hpositions ⟨hleast.2 (by omega), hgreatest.2 (by omega)⟩
      rw [decide_eq_true hsome]
      apply writes_scientific _ hdigits
      intro hzero
      rw [hzero] at hpositions
      exact hpositions (by decide)

theorem toList_sign (negative : Bool) : (Notation.sign negative).toList = if negative then ['-'] else [] := by
  cases negative <;> rfl

theorem Form.value_eq {f : Form} {n d : Nat} (h : f.size = n / d) : f.value = signed f.negative n / d := by
  unfold Form.value
  rw [h]
  cases f.negative
  · rfl
  · rw [if_pos rfl, Binary64.signed_true]
    push_cast
    rw [neg_div]

/-- What the numeral of a printed number is like. -/
structure Prints (x : Float) (f : Form) : Prop where
  wellFormed : f.WellFormed
  text : (printed.write x).toList = f.text
  nearest : Nearest f.value x
  power : f.power.isSome = true ↔ value x ≠ 0 ∧ (|value x| < value 1e-6 ∨ 10 ^ 21 ≤ |value x|)

section

variable {x : Float} {negative : Bool} {bits : Nat}

theorem value_eq_zero_iff {units : Nat} (hx : parts x = .finite negative units) : value x = 0 ↔ units = 0 := by
  rw [← abs_eq_zero, Binary64.abs_value_eq hx, div_eq_zero_iff, or_iff_left Binary64.unitsPerOne_pos_rat.ne']
  exact Nat.cast_eq_zero

/-- Zero is printed as one digit. -/
theorem write_zero (hx : parts x = .finite negative 0) : printed.write x = "0" := by
  unfold Notation.write
  rw [hx]
  dsimp only
  rw [if_pos rfl]
  cases negative <;> rfl

theorem prints_zero (hx : parts x = .finite negative 0) : Prints x ⟨false, ['0'], none, none⟩ := by
  have hvalue : value x = 0 := (value_eq_zero_iff hx).2 rfl
  refine ⟨⟨nofun, ?_, nofun, nofun, nofun⟩, ?_, ?_, ?_⟩
  · exact allDigits_zeros 1
  · rw [write_zero hx]
    rfl
  · have hfinite : roundedBits 0 unitsPerOne < Binary64.infinityBits := (Binary64.bitsOf_of_parts hx).2
    have hnearest := Binary64.nearest_ofRatio negative Binary64.unitsPerOne_pos hfinite
    have hsame : Binary64.ofRatio negative 0 unitsPerOne = x := Binary64.ofUnits_parts hx
    have hzero : (Form.mk false ['0'] none none).value = 0 := by
      unfold Form.value Form.size Form.places
      simp [natOfDigits]
    rw [hsame, Binary64.signed_zero, Int.cast_zero, zero_div] at hnearest
    rw [hzero]
    exact hnearest
  · rw [hvalue]
    simp

/-- Printed numbers other than zero. -/
theorem write_nonzero {units : Nat} (hx : parts x = .finite negative units) (hunits : units ≠ 0) :
    printed.write x = Notation.sign negative ++ printed.magnitude units := by
  unfold Notation.write
  rw [hx]
  dsimp only
  rw [if_neg hunits]

theorem needsPower_iff (hx : parts x = .finite negative (unitsOfBits bits)) (hfinite : bits < Binary64.infinityBits) :
    NeedsPower bits ↔ |value x| < value 1e-6 ∨ 10 ^ 21 ≤ |value x| := by
  have hU := Binary64.unitsPerOne_pos_rat
  have hlimits : bitsOf 1e-6 < Binary64.infinityBits ∧ bitsOf 1e21 < Binary64.infinityBits := by decide +kernel
  have hmillionth : parts 1e-6 = .finite false (unitsOfBits (bitsOf 1e-6)) := by decide +kernel
  have hsextillion : ((unitsOfBits (bitsOf 1e21) : Nat) : ℚ) = 10 ^ 21 * unitsPerOne := by
    have hwhole : unitsOfBits (bitsOf 1e21) = 10 ^ 21 * unitsPerOne := by decide +kernel
    rw [hwhole]
    push_cast
    rfl
  unfold NeedsPower
  rw [Binary64.abs_value_eq hx, Binary64.value_eq hmillionth, Binary64.signed_false, Int.cast_natCast,
    div_lt_div_iff_of_pos_right hU, le_div_iff₀ hU, ← hsextillion, Nat.cast_lt, Nat.cast_le,
    Binary64.unitsOfBits_lt_iff hfinite hlimits.1, ← Nat.not_lt, ← Nat.not_lt,
    Binary64.unitsOfBits_lt_iff hfinite hlimits.2]

/-- The numeral of a number that is not zero rounds back to it, its sign included. -/
theorem prints_nonzero (hx : parts x = .finite negative (unitsOfBits bits)) (hpos : 0 < bits)
    (hfinite : bits < Binary64.infinityBits) :
    ∃ (f : Form) (n d : Nat), Prints x f ∧ 0 < d ∧ f.size = n / d ∧ Binary64.ofRatio f.negative n d = x := by
  obtain ⟨n, d, hd, hround, f, hf, hnegative, hmagnitude, hsize, hpower⟩ := writes_magnitude hpos hfinite
  have hunits := unitsOfBits_pos hpos hfinite
  have hsame : Binary64.ofRatio negative n d = x := by
    rw [← Binary64.ofUnits_parts hx]
    unfold Binary64.ofRatio Binary64.ofUnits Binary64.ofRatio
    rw [hround, Binary64.roundedBits_unitsOfBits hfinite]
  refine ⟨{ f with negative := negative }, n, d, ⟨?_, ?_, ?_, ?_⟩, hd, hsize, hsame⟩
  · exact ⟨hf.whole_ne, hf.whole, hf.fraction_ne, hf.places, hf.power⟩
  · rw [write_nonzero hx hunits.ne', String.toList_append, toList_sign, ← hmagnitude]
    rfl
  · have hlow : roundedBits n d < Binary64.infinityBits := by
      rw [hround]
      exact hfinite
    have hnearest := Binary64.nearest_ofRatio negative hd hlow
    rw [hsame] at hnearest
    rw [Form.value_eq (f := { f with negative := negative }) hsize]
    exact hnearest
  · show f.power.isSome = true ↔ _
    rw [hpower, decide_eq_true_iff, needsPower_iff hx hfinite, Ne, value_eq_zero_iff hx, and_iff_right hunits.ne']

/-- Every finite double is printed as a numeral that rounds back to it. -/
theorem exists_prints {x : Float} (hx : IsFinite x) : ∃ f, Prints x f := by
  obtain ⟨negative, units, hparts⟩ := hx
  obtain ⟨bits, hfinite, -, rfl⟩ := Binary64.bits_of_parts hparts
  rcases Nat.eq_zero_or_pos bits with rfl | hpos
  · exact ⟨_, prints_zero hparts⟩
  · obtain ⟨f, n, d, hprints, -⟩ := prints_nonzero hparts hpos hfinite
    exact ⟨f, hprints⟩

/-! ## Whole numbers -/

theorem toString_eq (i : ℤ) : toString i = Notation.sign (decide (i < 0)) ++ digits i.natAbs := by
  cases i with
  | ofNat n =>
    have hsign : ¬ Int.ofNat n < 0 := Int.not_lt.2 (Int.natCast_nonneg n)
    rw [decide_eq_false hsign]
    exact String.empty_append.symm
  | negSucc n =>
    rw [decide_eq_true (Int.negSucc_lt_zero n)]
    rfl

/-- **Whole numbers below a sextillion are printed with all their digits.** -/
theorem write_whole {x : Float} (hx : IsFinite x) {i : ℤ} (hvalue : value x = i) (hbelow : |i| < 10 ^ 21) :
    printed.write x = toString i := by
  obtain ⟨negative, units, hparts⟩ := hx
  have hU := Binary64.unitsPerOne_pos
  have hunits : signed negative units = i * unitsPerOne := by
    rw [Binary64.value_eq hparts, div_eq_iff Binary64.unitsPerOne_pos_rat.ne'] at hvalue
    exact_mod_cast hvalue
  have hmagnitude : units = i.natAbs * unitsPerOne := by
    rw [← Binary64.natAbs_signed negative units, hunits, Int.natAbs_mul, Int.natAbs_natCast]
  by_cases hzero : i = 0
  · subst hzero
    rw [Int.natAbs_zero, Nat.zero_mul] at hmagnitude
    subst hmagnitude
    exact write_zero hparts
  · have hpos : 0 < units := by
      rw [hmagnitude]
      exact Nat.mul_pos (Int.natAbs_pos.2 hzero) hU
    have hsign : negative = decide (i < 0) := by
      have hsame : signed negative units = signed (decide (i < 0)) units := by
        rw [hunits, hmagnitude, Binary64.signed_mul, Binary64.signed_natAbs]
      exact Binary64.negative_of_signed hpos hsame
    have hwhole : units / unitsPerOne = i.natAbs := by
      rw [hmagnitude, Nat.mul_div_cancel _ hU]
    have hnone : units % unitsPerOne = 0 := by
      rw [hmagnitude, Nat.mul_mod_left]
    have hlimit : i.natAbs < Nat.pow 10 21 := by
      rw [Int.abs_eq_natAbs] at hbelow
      exact_mod_cast hbelow
    have hmark : digits i.natAbs ++ printed.wholeMark = digits i.natAbs := String.append_empty
    rw [write_nonzero hparts hpos.ne', toString_eq, hsign]
    unfold Notation.magnitude
    dsimp only
    rw [hwhole, if_pos ⟨rfl, hnone, hlimit⟩, hmark]

/-! ## Different numbers -/

/-- Infinities are printed as a word. -/
theorem write_infinite {x : Float} (hx : parts x = .infinite negative) :
    (printed.write x).toList = (if negative then ['-'] else []) ++ "Infinity".toList := by
  unfold Notation.write
  rw [hx]
  dsimp only
  rw [String.toList_append, toList_sign]
  rfl

theorem infinite_ne {f : Form} (hf : f.WellFormed) (negative : Bool) :
    f.text ≠ (if negative then ['-'] else []) ++ "Infinity".toList := by
  have hword : "Infinity".toList = 'I' :: "nfinity".toList := rfl
  rw [hword]
  unfold Form.text
  intro h
  cases hnegative : f.negative <;> cases negative <;> rw [hnegative] at h
  · exact hf.magnitude_ne rfl _ h
  · exact hf.magnitude_ne rfl _ h
  · exact absurd (List.cons.inj h).1 (by decide)
  · exact hf.magnitude_ne rfl _ (List.cons.inj h).2

/-- A text is the numeral of one number at most. -/
theorem Prints.unique {x y : Float} {f g : Form} (hx : Prints x f) (hy : Prints y g)
    (h : printed.write x = printed.write y) : f = g := by
  apply Form.text_inj hx.wellFormed hy.wellFormed
  rw [← hx.text, ← hy.text, h]

/-- What is printed as zero is zero. -/
theorem value_eq_zero_of_write {x y : Float} (hx : IsFinite x) (hy : IsFinite y)
    (h : printed.write x = printed.write y) (hvalue : value x = 0) : value y = 0 := by
  have hfinite := hx
  obtain ⟨negative, units, hparts⟩ := hx
  obtain rfl := (value_eq_zero_iff hparts).1 hvalue
  obtain ⟨f, hf⟩ := exists_prints hy
  have hsame := (prints_zero hparts).unique hf h
  subst hsame
  have hzero : (Form.mk false ['0'] none none).value = 0 := by
    unfold Form.value Form.size Form.places
    simp [natOfDigits]
  have hclosest := hf.nearest.closest x hfinite
  rw [hzero, hvalue, zero_sub, zero_sub, neg_zero, abs_neg, abs_zero] at hclosest
  exact abs_eq_zero.1 (le_antisymm hclosest (abs_nonneg _))

/-- Numerals tell finite doubles apart, but for the two zeros. -/
theorem eq_of_write_finite {x y : Float} (hx : IsFinite x) (hy : IsFinite y) (h : printed.write x = printed.write y) :
    x = y ∨ value x = 0 ∧ value y = 0 := by
  by_cases hvalue : value x = 0
  · exact .inr ⟨hvalue, value_eq_zero_of_write hx hy h hvalue⟩
  by_cases hvalue' : value y = 0
  · exact .inr ⟨value_eq_zero_of_write hy hx h.symm hvalue', hvalue'⟩
  obtain ⟨negative, units, hparts⟩ := hx
  obtain ⟨negative', units', hparts'⟩ := hy
  rw [value_eq_zero_iff hparts] at hvalue
  rw [value_eq_zero_iff hparts'] at hvalue'
  obtain ⟨bits, hfinite, -, rfl⟩ := Binary64.bits_of_parts hparts
  obtain ⟨bits', hfinite', -, rfl⟩ := Binary64.bits_of_parts hparts'
  have hbits {bits : Nat} (hunits : unitsOfBits bits ≠ 0) : 0 < bits := by
    rcases Nat.eq_zero_or_pos bits with rfl | hpos
    · exact absurd rfl hunits
    · exact hpos
  obtain ⟨f, n, d, hf, hd, hsize, hx⟩ := prints_nonzero hparts (hbits hvalue) hfinite
  obtain ⟨g, n', d', hg, hd', hsize', hy⟩ := prints_nonzero hparts' (hbits hvalue') hfinite'
  have hsame := hf.unique hg h
  subst hsame
  have hcross : n * d' = n' * d := by
    have hd₀ : (d : ℚ) ≠ 0 := by exact_mod_cast hd.ne'
    have hd₀' : (d' : ℚ) ≠ 0 := by exact_mod_cast hd'.ne'
    have hquotient := hsize.symm.trans hsize'
    rw [div_eq_div_iff hd₀ hd₀'] at hquotient
    exact_mod_cast hquotient
  left
  rw [← hx, ← hy]
  unfold Binary64.ofRatio
  rw [Binary64.roundedBits_congr hd hd' hcross]

/-- Printed numbers tell doubles apart, but for the two zeros and the NaNs. -/
theorem eq_of_write {x y : Float} (hx : parts x ≠ .nan) (hy : parts y ≠ .nan) (h : printed.write x = printed.write y) :
    x = y ∨ IsFinite x ∧ IsFinite y ∧ value x = 0 ∧ value y = 0 := by
  have hapart {x y : Float} {negative : Bool} (hx : IsFinite x) (hy : parts y = .infinite negative) :
      printed.write x ≠ printed.write y := by
    intro h
    obtain ⟨f, hf⟩ := exists_prints hx
    apply infinite_ne hf.wellFormed negative
    rw [← hf.text, h, write_infinite hy]
  cases hparts : parts x with
  | nan => exact absurd hparts hx
  | finite negative units =>
    cases hparts' : parts y with
    | nan => exact absurd hparts' hy
    | finite negative' units' =>
      rcases eq_of_write_finite ⟨_, _, hparts⟩ ⟨_, _, hparts'⟩ h with hsame | hzero
      · exact .inl hsame
      · exact .inr ⟨⟨_, _, hparts⟩, ⟨_, _, hparts'⟩, hzero⟩
    | infinite negative' => exact absurd h (hapart ⟨_, _, hparts⟩ hparts')
  | infinite negative =>
    cases hparts' : parts y with
    | nan => exact absurd hparts' hy
    | finite negative' units' => exact absurd h.symm (hapart ⟨_, _, hparts'⟩ hparts)
    | infinite negative' =>
      left
      apply Binary64.bitsOf_inj
      rw [Binary64.bits_of_infinite hparts, Binary64.bits_of_infinite hparts']
      have htexts := (write_infinite hparts).symm.trans ((congrArg String.toList h).trans (write_infinite hparts'))
      cases negative <;> cases negative' <;> first | rfl | exact absurd htexts (by decide)

end

/-- **Printed numbers.** The text of a finite double is a numeral that rounds back to it, with an exponent just where
the magnitude is small or great; zero has no sign; whole numbers below a sextillion show all their digits; and no two
doubles are printed alike, but for the two zeros and the NaNs. -/
theorem write_faithful :
    (∀ x, IsFinite x → ∃ f, Prints x f) ∧
      (∀ x, IsFinite x → value x = 0 → printed.write x = "0") ∧
      (∀ x (i : ℤ), IsFinite x → value x = i → |i| < 10 ^ 21 → printed.write x = toString i) ∧
      ∀ x y, parts x ≠ .nan → parts y ≠ .nan → printed.write x = printed.write y →
        x = y ∨ IsFinite x ∧ IsFinite y ∧ value x = 0 ∧ value y = 0 := by
  refine ⟨fun x hx => exists_prints hx, ?_, fun x i hx hvalue hbelow => write_whole hx hvalue hbelow,
    fun x y hx hy h => eq_of_write hx hy h⟩
  rintro x ⟨negative, units, hparts⟩ hvalue
  obtain rfl := (value_eq_zero_iff hparts).1 hvalue
  exact write_zero hparts

/-- A fraction, the zero with a sign, a whole number, and the two zeros. -/
theorem write_faithful_zeros :
    (IsFinite 0.1 ∧ ∃ f, Prints 0.1 f) ∧
      (IsFinite (-0.0) ∧ value (-0.0) = 0 ∧ printed.write (-0.0) = "0") ∧
      (IsFinite 1e20 ∧ value 1e20 = (100000000000000000000 : ℤ) ∧ |(100000000000000000000 : ℤ)| < 10 ^ 21 ∧
        printed.write 1e20 = toString (100000000000000000000 : ℤ)) ∧
      (parts 0.0 ≠ .nan ∧ parts (-0.0) ≠ .nan ∧ printed.write 0.0 = printed.write (-0.0) ∧
        (0.0 = -0.0 ∨ IsFinite 0.0 ∧ IsFinite (-0.0) ∧ value 0.0 = 0 ∧ value (-0.0) = 0)) := by
  have htenth : IsFinite 0.1 := by decide +kernel
  have hnegative : parts (-0.0) = .finite true 0 := by decide +kernel
  have hpositive : parts 0.0 = .finite false 0 := by decide +kernel
  have hwhole : parts 1e20 = .finite false (100000000000000000000 * unitsPerOne) := by decide +kernel
  have hzero : value (-0.0) = 0 := (value_eq_zero_iff hnegative).2 rfl
  have hvalue : value 1e20 = (100000000000000000000 : ℤ) := by
    rw [Binary64.value_eq hwhole, Binary64.signed_false, div_eq_iff Binary64.unitsPerOne_pos_rat.ne']
    push_cast
    rfl
  have hbelow : |(100000000000000000000 : ℤ)| < 10 ^ 21 := by decide
  have hnumber : parts 0.0 ≠ .nan := by
    rw [hpositive]
    nofun
  have hnumber' : parts (-0.0) ≠ .nan := by
    rw [hnegative]
    nofun
  have hsame : printed.write 0.0 = printed.write (-0.0) := (write_zero hpositive).trans (write_zero hnegative).symm
  exact ⟨⟨htenth, write_faithful.1 0.1 htenth⟩,
    ⟨⟨_, _, hnegative⟩, hzero, write_faithful.2.1 _ ⟨_, _, hnegative⟩ hzero⟩,
    ⟨⟨_, _, hwhole⟩, hvalue, hbelow, write_faithful.2.2.1 _ _ ⟨_, _, hwhole⟩ hvalue hbelow⟩,
    ⟨hnumber, hnumber', hsame, write_faithful.2.2.2 _ _ hnumber hnumber' hsame⟩⟩

end MiniScheme.Numeral
