import MiniScheme.Numeral
import MiniScheme.Proofs.Binary64.Order
import MiniScheme.Proofs.Binary64.Shortest
import MiniScheme.Proofs.Binary64.Value
import Mathlib.Data.List.TakeWhile

/-!
# Printed numerals read back

* `Spelled`: digits with at most one point among them, and the quotient they stand for.
* `read_spelled`: a numeral so spelled reads as the double nearest to that quotient.
* `write_spelled`: a double that is printed without an exponent is printed as such a numeral, which reads back as it.
-/

namespace MiniScheme.Numeral

open Binary64 (roundedBits unitsPerOne Decimal shortest bitsOf unitsOf unitsOfBits Positive)

/-! ## Digits -/

/-- Nothing but decimal digits. -/
def AllDigits (cs : List Char) : Prop := ∀ c ∈ cs, c.isDigit = true

theorem AllDigits.append {cs ds : List Char} (hcs : AllDigits cs) (hds : AllDigits ds) : AllDigits (cs ++ ds) := by
  intro c hc
  rcases List.mem_append.1 hc with hc | hc
  · exact hcs c hc
  · exact hds c hc

theorem allDigits_zeros (k : Nat) : AllDigits (List.replicate k '0') := by
  intro c hc
  rw [(List.mem_replicate.1 hc).2]
  rfl

theorem allDigits_toDigits (n : Nat) : AllDigits (Nat.toDigits 10 n) := fun _ hc =>
  Nat.isDigit_of_mem_toDigits (by decide) (by decide) hc

theorem natOfDigits_toDigits (n : Nat) : natOfDigits (Nat.toDigits 10 n) = n := Nat.ofDigitChars_ten_toDigits

/-- Zeros behind the digits make the number greater. -/
theorem natOfDigits_append_zeros (ds : List Char) (k : Nat) :
    natOfDigits (ds ++ List.replicate k '0') = natOfDigits ds * Nat.pow 10 k := by
  show Nat.ofDigitChars 10 (ds ++ List.replicate k '0') 0 = _
  rw [Nat.ofDigitChars_append, Nat.ofDigitChars_replicate_zero, Nat.mul_comm]
  rfl

/-- Zeros in front of the digits count for nothing. -/
theorem natOfDigits_zeros_append (k : Nat) (ds : List Char) :
    natOfDigits (List.replicate k '0' ++ ds) = natOfDigits ds := by
  show Nat.ofDigitChars 10 (List.replicate k '0' ++ ds) 0 = _
  rw [Nat.ofDigitChars_append, Nat.ofDigitChars_replicate_zero, Nat.mul_zero]
  rfl

/-! ## Numerals -/

/-- Digits with at most one point among them, spelling the quotient `n / 10 ^ places`. -/
inductive Spelled : List Char → Nat → Nat → Prop
  | whole {ds : List Char} (hne : ds ≠ []) (hds : AllDigits ds) : Spelled ds (natOfDigits ds) 0
  | point {ds fs : List Char} (hne : ds ≠ []) (hds : AllDigits ds) (hfs : AllDigits fs) :
    Spelled (ds ++ '.' :: fs) (natOfDigits (ds ++ fs)) fs.length

theorem takeWhile_digits {ds : List Char} (hds : AllDigits ds) : ds.takeWhile Char.isDigit = ds :=
  List.takeWhile_eq_self_iff.2 hds

/-- **A numeral reads as what it spells**, rounded to the nearest double. -/
theorem read_spelled {cs : List Char} {n places : Nat} (h : Spelled cs n places) :
    read cs = Binary64.ofDecimal n places := by
  cases h with
  | whole hne hds =>
    have hrest : cs.dropWhile Char.isDigit = [] := List.dropWhile_eq_nil_iff.2 hds
    unfold read
    rw [hrest, takeWhile_digits hds]
  | point hne hds hfs =>
    rename_i ds fs
    have hwhole : (ds ++ '.' :: fs).takeWhile Char.isDigit = ds := by
      rw [List.takeWhile_append_of_pos hds]
      simp
    have hrest : (ds ++ '.' :: fs).dropWhile Char.isDigit = '.' :: fs := by
      rw [List.dropWhile_append_of_pos hds]
      simp
    unfold read
    simp only [hwhole, hrest, takeWhile_digits hfs]

namespace Spelled

variable {cs : List Char} {n places : Nat}

/-- A numeral starts with a digit. -/
theorem head (h : Spelled cs n places) : ∃ c rest, cs = c :: rest ∧ c.isDigit = true := by
  cases h with
  | whole hne hds =>
    obtain ⟨c, rest, rfl⟩ := List.exists_cons_of_ne_nil hne
    exact ⟨c, rest, rfl, hds c List.mem_cons_self⟩
  | point hne hds hfs =>
    obtain ⟨c, rest, rfl⟩ := List.exists_cons_of_ne_nil hne
    exact ⟨c, _, rfl, hds c List.mem_cons_self⟩

/-- A numeral has nothing but digits and points. -/
theorem mem (h : Spelled cs n places) {c : Char} (hc : c ∈ cs) : c.isDigit = true ∨ c = '.' := by
  cases h with
  | whole hne hds => exact .inl (hds c hc)
  | point hne hds hfs =>
    rcases List.mem_append.1 hc with hc | hc
    · exact .inl (hds c hc)
    · rcases List.mem_cons.1 hc with rfl | hc
      · exact .inr rfl
      · exact .inl (hfs c hc)

end Spelled

/-! ## Writing -/

/-- The digits of a whole number spell it. -/
theorem digits_spelled (n : Nat) : Spelled (digits n).toList n 0 := by
  have h := Spelled.whole (Nat.toDigits_ne_nil (n := n) (b := 10)) (allDigits_toDigits n)
  rw [natOfDigits_toDigits] at h
  unfold digits
  rw [String.toList_ofList]
  exact h

theorem toList_zeros (k : Nat) : (zeros k).toList = List.replicate k '0' := String.toList_ofList

/-- A decimal has the bits of the quotient that its digits and zeros spell, with what it drops beyond its places put
behind the digits. -/
theorem bits_eq_spelled (d : Decimal) :
    roundedBits (d.digits * Nat.pow 10 (d.dropped - Binary64.places)) (Nat.pow 10 (Binary64.places - d.dropped))
      = d.bits := by
  unfold Decimal.bits
  generalize Binary64.places = places
  split
  · rename_i hle
    have hzero : d.dropped - places = 0 := Nat.sub_eq_zero_of_le hle
    rw [hzero, Nat.pow_eq, Nat.pow_zero, Nat.mul_one]
  · rename_i hlt
    have hzero : places - d.dropped = 0 := by omega
    rw [hzero, Nat.pow_eq, Nat.pow_eq, Nat.pow_zero]

/-- **Digits in positions spell the decimal** that they are the digits of. -/
theorem positions_spelled (d : Decimal) (hd : d.digits ≠ 0) :
    Spelled (printed.positions (Nat.toDigits 10 d.digits) d.exponent).toList
      (d.digits * Nat.pow 10 (d.dropped - Binary64.places)) (Binary64.places - d.dropped) := by
  have hlength : Decimal.length d.digits = (Nat.toDigits 10 d.digits).length := by
    unfold Decimal.length
    rw [if_neg hd]
  have hexponent : d.exponent = (Decimal.length d.digits + d.dropped : Nat) - 1 - (Binary64.places : Int) := rfl
  have hpos : 0 < (Nat.toDigits 10 d.digits).length := Nat.length_toDigits_pos
  have hdigits := allDigits_toDigits d.digits
  have hvalue := natOfDigits_toDigits d.digits
  rw [hlength] at hexponent
  generalize Nat.toDigits 10 d.digits = ds at hexponent hpos hdigits hvalue ⊢
  generalize Binary64.places = places at hexponent ⊢
  have hone : d.digits * Nat.pow 10 0 = d.digits := Nat.mul_one _
  unfold Notation.positions
  split
  -- All the digits stand after the point.
  · rename_i hbelow
    have hplaces : (-d.exponent - 1).toNat + ds.length = places - d.dropped := by omega
    have hdropped : d.dropped - places = 0 := by omega
    have h := @Spelled.point ['0'] _ (List.cons_ne_nil _ _) (allDigits_zeros 1)
      ((allDigits_zeros (-d.exponent - 1).toNat).append hdigits)
    have hzeros : natOfDigits (['0'] ++ (List.replicate (-d.exponent - 1).toNat '0' ++ ds)) = d.digits := by
      rw [← hvalue, ← natOfDigits_zeros_append (-d.exponent - 1).toNat ds]
      exact natOfDigits_zeros_append 1 _
    rw [hzeros, List.length_append, List.length_replicate, hplaces] at h
    rw [hdropped, hone, String.toList_append, String.toList_append, toList_zeros, List.append_assoc,
      String.toList_ofList, String.toList_ofList]
    exact h
  · dsimp only
    split
    -- All the digits stand before the point.
    · rename_i hbelow hwhole
      have hzeros : d.exponent.toNat + 1 - ds.length = d.dropped - places := by omega
      have hplaces : places - d.dropped = 0 := by omega
      have h := @Spelled.whole (ds ++ List.replicate (d.exponent.toNat + 1 - ds.length) '0')
        (by simp [List.length_pos_iff.1 hpos]) (hdigits.append (allDigits_zeros _))
      rw [natOfDigits_append_zeros, hvalue] at h
      have hmark : printed.wholeMark.toList = [] := rfl
      rw [hplaces, ← hzeros, String.toList_append, String.toList_append, toList_zeros, String.toList_ofList, hmark,
        List.append_nil]
      exact h
    · rename_i hbelow hwhole
      have hdropped : d.dropped - places = 0 := by omega
      have hplaces : ds.length - (d.exponent.toNat + 1) = places - d.dropped := by omega
      have h := @Spelled.point (ds.take (d.exponent.toNat + 1)) (ds.drop (d.exponent.toNat + 1))
        (by simp [List.length_pos_iff.1 hpos]) (fun c hc => hdigits c (List.mem_of_mem_take hc))
        (fun c hc => hdigits c (List.mem_of_mem_drop hc))
      rw [List.take_append_drop, hvalue, List.length_drop, hplaces] at h
      rw [hdropped, hone, String.toList_append, String.toList_append, List.append_assoc, String.toList_ofList,
        String.toList_ofList, String.toList_ofList]
      exact h

/-! ## Printed numbers -/

/-- The units of a positive double have its bits. -/
theorem roundedBits_unitsOf {x : Float} (hx : Positive x) : roundedBits (unitsOf x) unitsPerOne = bitsOf x :=
  Binary64.roundedBits_unitsOfBits hx.bits_lt

/-- A quotient with the bits of a double reads as that double. -/
theorem ofDecimal_eq {x : Float} (hx : Positive x) {n places : Nat}
    (h : roundedBits n (Nat.pow 10 places) = bitsOf x) : Binary64.ofDecimal n places = x := by
  unfold Binary64.ofDecimal Binary64.ofRatio
  rw [h, if_neg Bool.false_ne_true, Nat.zero_add, hx.ofBits_eq]

theorem unitsOfBits_bitsOf (x : Float) : unitsOfBits (bitsOf x) = unitsOf x := rfl

/-- Where the shortest decimal of a double starts, by the bits of that double. -/
theorem exponent_shortest {bits : Nat} (hpos : 0 < bits) (hfinite : bits < Binary64.infinityBits) :
    (shortest (unitsOfBits bits)).digits ≠ 0 ∧
      (-6 ≤ (shortest (unitsOfBits bits)).exponent ↔ bitsOf 1e-6 ≤ bits) ∧
      ((shortest (unitsOfBits bits)).exponent ≤ 20 ↔ bits < bitsOf 1e21) := by
  have hmillionth : bitsOf 1e-6 = roundedBits (Nat.pow 10 0) (Nat.pow 10 6) := by decide +kernel
  have hsextillion : bitsOf 1e21 = roundedBits (Nat.pow 10 21) (Nat.pow 10 0) := by decide +kernel
  have hbits : (shortest (unitsOfBits bits)).bits = bits := by
    rw [Binary64.shortest_bits, Binary64.roundedBits_unitsOfBits hfinite]
  have hdigits : (shortest (unitsOfBits bits)).digits ≠ 0 := by
    intro hzero
    have hnone : (shortest (unitsOfBits bits)).bits = 0 := by
      rw [Decimal.bits_eq, hzero, Nat.zero_mul]
      apply Binary64.roundedBits_zero
      apply Nat.pow_pos
      decide
    omega
  refine ⟨hdigits, ⟨fun hleast => ?_, fun habove => ?_⟩, ⟨fun hgreatest => ?_, fun hbelow => ?_⟩⟩
  · by_contra hless
    have := Decimal.exponent_lt 0 6 hdigits (by omega)
    omega
  · by_cases hequal : bits = bitsOf 1e-6
    -- The power of ten itself may round up to the double, so that its decimal is looked at.
    · rw [hequal]
      decide +kernel
    · exact Decimal.le_exponent 0 6 hdigits (by omega)
  · by_cases hequal : bits = bitsOf 1e21
    · rw [hequal] at hgreatest
      have hstarts : ¬ (shortest (unitsOfBits (bitsOf 1e21))).exponent ≤ 20 := by decide +kernel
      exact absurd hgreatest hstarts
    · by_contra hbeyond
      have := Decimal.le_exponent 21 0 hdigits (by omega)
      omega
  · have := Decimal.exponent_lt 21 0 hdigits (by omega)
    omega

/-- **Printed numbers read back.** A double that is printed without an exponent is printed as a numeral that reads as
that double. -/
theorem write_spelled {x : Float} (hlow : 1e-6 ≤ x) (hhigh : x < 1e21) :
    ∃ n places, Spelled (printed.write x).toList n places ∧ Binary64.ofDecimal n places = x := by
  have hmillionth : Positive 1e-6 := Binary64.positive_of_bits (by decide +kernel) (by decide +kernel)
  have hsextillion : Positive 1e21 := Binary64.positive_of_bits (by decide +kernel) (by decide +kernel)
  have hx := Binary64.positive_between hmillionth hsextillion hlow hhigh
  obtain ⟨hdigits, hleast, hgreatest⟩ := exponent_shortest hx.bits_pos hx.bits_lt
  rw [unitsOfBits_bitsOf] at hdigits hleast hgreatest
  have hleast := hleast.2 ((hmillionth.le_iff hx).1 hlow)
  have hgreatest := hgreatest.2 ((hx.lt_iff hsextillion).1 hhigh)
  have hparts := hx.parts_eq
  have hunits := roundedBits_unitsOf hx
  generalize unitsOf x = units at *
  have hnonzero : units ≠ 0 := by
    intro hzero
    have hpos := hx.bits_pos
    rw [← hunits, hzero, Binary64.roundedBits_zero Binary64.unitsPerOne_pos] at hpos
    omega
  have hwrite : printed.write x = printed.magnitude units := by
    unfold Notation.write
    rw [hparts]
    dsimp only
    rw [if_neg hnonzero]
    exact String.empty_append
  rw [hwrite]
  unfold Notation.magnitude
  dsimp only
  split
  · rename_i hwhole
    refine ⟨units / unitsPerOne, 0, ?_, ?_⟩
    · have hmark : digits (units / unitsPerOne) ++ printed.wholeMark = digits (units / unitsPerOne) :=
        String.append_empty
      rw [hmark]
      exact digits_spelled _
    · apply ofDecimal_eq hx
      rw [← hunits]
      apply Binary64.roundedBits_congr (Nat.pow_pos (by decide)) Binary64.unitsPerOne_pos
      rw [Nat.div_mul_cancel (Nat.dvd_of_mod_eq_zero hwhole.2.1)]
      exact (Nat.mul_one units).symm
  · rw [if_pos ⟨hleast, hgreatest⟩]
    refine ⟨_, _, positions_spelled _ hdigits, ofDecimal_eq hx ?_⟩
    rw [bits_eq_spelled, Binary64.shortest_bits, hunits]

end MiniScheme.Numeral
