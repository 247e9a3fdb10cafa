import MiniScheme.Proofs.Binary64.Value

/-!
# Sums are rounded once

The sum of two finite doubles is their exact sum, rounded to the nearest double.

* `roundedMantissa_shift`: shifting digits out behind a round digit and a sticky one rounds half to even.
* `pack_round_toNat`: rounding a significand to 53 digits and packing it gives the bits of its units.
* `add_eq_ofUnits`, `parts_add_eq_zero`: the sum of two finite doubles.
-/

namespace MiniScheme.Binary64

open Float.Model (UnpackedFloat Format totalExponent)
open Float.Model.UnpackedFloat (Sign ExtendedMantissa Accuracy pack unpack packComponents round roundWithAccuracy
  shiftToTargetExponent shiftToExponent decreaseExponent normalize)

/-! ## Digits that are shifted out -/

/-- What is left of a number after digits are shifted out: the last of them, and whether there was another one. -/
structure ShiftedOut (m s : Nat) (em : ExtendedMantissa) : Prop where
  mantissa : em.mantissa = m / 2 ^ s
  roundBit : em.roundBit = true ↔ 2 ^ s ≤ 2 * (m % 2 ^ s)
  stickyBit : em.stickyBit = true ↔ 2 * (m % 2 ^ s) % 2 ^ s ≠ 0

theorem shiftedOut_zero (m : Nat) : ShiftedOut m 0 ⟨m, false, false⟩ :=
  ⟨by simp, by simp [Nat.mod_one], by simp [Nat.mod_one]⟩

/-- One more digit is shifted out. -/
theorem ShiftedOut.succ {m s : Nat} {em : ExtendedMantissa} (h : ShiftedOut m s em) :
    ShiftedOut m (s + 1) em.shiftRightOne := by
  obtain ⟨hmantissa, hround, hsticky⟩ := h
  have hpos : 0 < 2 ^ s := Nat.two_pow_pos s
  have hsmall : m % 2 ^ s < 2 ^ s := Nat.mod_lt _ hpos
  have hrest : m % 2 ^ (s + 1) = m % 2 ^ s + 2 ^ s * (m / 2 ^ s % 2) := by rw [Nat.pow_succ, Nat.mod_mul]
  have hdigit : m / 2 ^ s % 2 = 0 ∨ m / 2 ^ s % 2 = 1 := Nat.mod_two_eq_zero_or_one _
  have hdouble : 2 * (m % 2 ^ (s + 1)) % 2 ^ (s + 1) = 2 * (m % 2 ^ s) := by
    rw [Nat.pow_succ, Nat.mul_comm (2 ^ s) 2, Nat.mul_mod_mul_left, Nat.mod_mul_left_mod]
  refine ⟨?_, ?_, ?_⟩
  · show em.mantissa / 2 = _
    rw [hmantissa, Nat.div_div_eq_div_mul, Nat.pow_succ]
  · show (em.mantissa % 2 != 0) = true ↔ _
    rw [hmantissa, hrest, Nat.pow_succ, bne_iff_ne]
    rcases hdigit with hdigit | hdigit <;> rw [hdigit] <;> omega
  · show (em.roundBit || em.stickyBit) = true ↔ _
    rw [Bool.or_eq_true, hround, hsticky, hdouble]
    constructor
    · rintro (hhalf | hsome) hnone
      · omega
      · rw [hnone, Nat.zero_mod] at hsome
        exact hsome rfl
    · intro hsome
      by_cases hhalf : 2 ^ s ≤ 2 * (m % 2 ^ s)
      · exact .inl hhalf
      · rw [Nat.mod_eq_of_lt (Nat.lt_of_not_le hhalf)]
        exact .inr hsome

theorem shiftedOut (m s : Nat) : ShiftedOut m s ((⟨m, false, false⟩ : ExtendedMantissa) >>> s) := by
  induction s with
  | zero => exact shiftedOut_zero m
  | succ s ih => exact ih.succ

/-- **The two digits that are kept decide the rounding.** -/
theorem roundedMantissa_shift (m s : Nat) :
    ((⟨m, false, false⟩ : ExtendedMantissa) >>> s).roundedMantissa = roundHalfEven m (2 ^ s) := by
  have hshift := shiftedOut m s
  generalize (⟨m, false, false⟩ : ExtendedMantissa) >>> s = em at hshift ⊢
  obtain ⟨mantissa, roundBit, stickyBit⟩ := em
  obtain ⟨hmantissa, hround, hsticky⟩ := hshift
  dsimp only at hmantissa hround hsticky
  have hpos : 0 < 2 ^ s := Nat.two_pow_pos s
  have hsmall : m % 2 ^ s < 2 ^ s := Nat.mod_lt _ hpos
  unfold roundHalfEven
  rw [← hmantissa]
  generalize m % 2 ^ s = r at hround hsticky hsmall ⊢
  generalize 2 ^ s = d at hround hsticky hsmall hpos ⊢
  cases roundBit
  · have hless : 2 * r < d := Nat.lt_of_not_le fun hle => Bool.false_ne_true (hround.2 hle)
    rw [if_pos (.inl hless)]
    cases stickyBit <;> rfl
  · have hhalf : d ≤ 2 * r := hround.1 rfl
    have hbeyond : 2 * r % d = 2 * r - d := by
      rw [Nat.mod_eq_sub_mod hhalf]
      exact Nat.mod_eq_of_lt (by omega)
    rw [hbeyond] at hsticky
    cases stickyBit
    · have htie : 2 * r = d := by
        by_contra hne
        exact Bool.false_ne_true (hsticky.2 (by omega))
      show mantissa + mantissa % 2 = _
      split <;> omega
    · have hmore := hsticky.1 rfl
      show mantissa + 1 = _
      rw [if_neg (by omega)]

/-! ## Rounding a significand -/

theorem mantissaBits_eq : Format.binary64.mantissaBits = 53 := rfl

theorem targetExponent_eq (m : Nat) (e : ℤ) :
    Format.binary64.targetExponent (totalExponent m e) = max (Nat.log2 m + e - 52) (-1074) := by
  have hleast : Format.binary64.minExponent = -1074 := rfl
  unfold Format.targetExponent totalExponent
  rw [mantissaBits_eq, hleast]
  omega

/-- The bits of a significand, whose exponent may be too great for any but infinity. -/
theorem pack_finite_toNat (sign : Sign) {m : Nat} {e : ℤ} (hpos : 0 < m) (hnarrow : m < 2 ^ 53) (hleast : -1074 ≤ e)
    (hnormal : e = -1074 ∨ 2 ^ 52 ≤ m) :
    (pack Format.binary64 (.finite sign m e hpos)).toNat
      = signBit sign * 2 ^ 63 + min ((e + 1074).toNat * 2 ^ 52 + m) infinityBits := by
  rw [infinityBits_eq]
  by_cases hgreatest : e ≤ 971
  · apply HasWord.pack_toNat
    apply HasWord.finite ⟨hnarrow, hleast, hgreatest, hnormal⟩
    omega
  · have hbiased : (e + (Format.binary64.exponentBias : Nat) + (52 : Nat)).toNat = (e + 1075).toNat := by
      rw [bias_eq]
      omega
    have hall : (-1#11).toNat = 2047 := rfl
    unfold pack
    dsimp only
    rw [hbiased, if_pos (by omega)]
    show (packComponents Format.binary64 sign (-1#11) 0#52).toNat = _
    rw [packComponents_toNat, hall, BitVec.toNat_ofNat]
    omega

/-- A significand that has been rounded is carried on where it has one digit too many. -/
theorem pack_carry_toNat (sign : Sign) {m : Nat} {t : ℤ} (hpos : 0 < m) (hwide : m ≤ 2 ^ 53) (hleast : -1074 ≤ t)
    (hnormal : t = -1074 ∨ 2 ^ 52 ≤ m) :
    let shifted := shiftToTargetExponent Format.binary64 m t .exact
    ∃ h : 0 < shifted.1.mantissa,
      (pack Format.binary64 (.finite sign shifted.1.mantissa shifted.2 h)).toNat
        = signBit sign * 2 ^ 63 + min ((t + 1074).toNat * 2 ^ 52 + m) infinityBits := by
  unfold shiftToTargetExponent shiftToExponent
  rw [targetExponent_eq]
  dsimp only
  by_cases hcarry : m = 2 ^ 53
  · subst hcarry
    have hlog : Nat.log2 (2 ^ 53) = 53 := by decide +kernel
    have hone : (max ((Nat.log2 (2 ^ 53) : ℤ) + t - 52) (-1074) - t).toNat = 1 := by
      rw [hlog]
      omega
    have hshifted : ExtendedMantissa.ofMantissaAndAccuracy (2 ^ 53) .exact >>> 1 = ⟨2 ^ 52, false, false⟩ := rfl
    have hexponent : (t + 1074).toNat * 2 ^ 52 + 2 ^ 53 = (t + 1 + 1074).toNat * 2 ^ 52 + 2 ^ 52 := by omega
    rw [hone, hshifted, hexponent]
    exact ⟨by decide, pack_finite_toNat sign (by decide) (by decide) (by omega) (.inr le_rfl)⟩
  · have hlog : Nat.log2 m < 53 := (Nat.log2_lt hpos.ne').2 (by omega)
    have hnone : (max ((Nat.log2 m : ℤ) + t - 52) (-1074) - t).toNat = 0 := by omega
    have hkept : ExtendedMantissa.ofMantissaAndAccuracy m .exact >>> 0 = ⟨m, false, false⟩ := rfl
    rw [hnone, hkept, Nat.cast_zero, Int.add_zero]
    exact ⟨hpos, pack_finite_toNat sign hpos (by omega) hleast hnormal⟩

theorem log2_mul_two_pow {m : Nat} (hpos : 0 < m) (k : Nat) : Nat.log2 (m * 2 ^ k) = Nat.log2 m + k := by
  refine (Nat.log2_eq_iff (Nat.mul_pos hpos (Nat.two_pow_pos k)).ne').2 ⟨?_, ?_⟩
  · rw [pow_add]
    exact Nat.mul_le_mul_right _ (Nat.log2_self_le hpos.ne')
  · rw [Nat.add_right_comm, pow_add]
    exact Nat.mul_lt_mul_of_pos_right Nat.lt_log2_self (Nat.two_pow_pos k)

/-- The digits beyond the significand are the same whether they are counted from units or not. -/
theorem rounded_significand {m s a : Nat} (hpos : 0 < m) (hbeyond : s + a = Nat.log2 m + a - 52) :
    rounded (m * 2 ^ a * unitsPerOne) unitsPerOne = (s + a) * 2 ^ 52 + roundHalfEven m (2 ^ s) ∧
      roundHalfEven m (2 ^ s) ≤ 2 ^ 53 ∧ (s + a = 0 ∨ 2 ^ 52 ≤ roundHalfEven m (2 ^ s)) ∧
      0 < roundHalfEven m (2 ^ s) := by
  have hU := unitsPerOne_pos
  have hsteps : beyond (m * 2 ^ a * unitsPerOne) unitsPerOne = s + a := by
    unfold beyond
    rw [Nat.mul_div_cancel _ hU, log2_mul_two_pow hpos, hbeyond]
  have hsame : roundHalfEven (m * 2 ^ a * unitsPerOne) (unitsPerOne * 2 ^ (s + a)) = roundHalfEven m (2 ^ s) := by
    apply roundHalfEven_congr (Nat.mul_pos hU (Nat.two_pow_pos _)) (Nat.two_pow_pos s)
    rw [pow_add]
    ring
  have hrounded : rounded (m * 2 ^ a * unitsPerOne) unitsPerOne = (s + a) * 2 ^ 52 + roundHalfEven m (2 ^ s) := by
    unfold rounded
    rw [hsteps, Nat.pow_eq, Nat.pow_eq, hsame]
  have hle := rounded_le (m * 2 ^ a * unitsPerOne) hU
  have hnormal : s + a = 0 ∨ 2 ^ 52 ≤ roundHalfEven m (2 ^ s) := by
    rcases Nat.eq_zero_or_pos (s + a) with hzero | hsome
    · exact .inl hzero
    · right
      have hge := (le_roundHalfEven_beyond (n := m * 2 ^ a * unitsPerOne) hU (by rw [hsteps]; exact hsome)).2
      rw [hsteps, hsame] at hge
      exact hge
  rw [hrounded, hsteps, Nat.pow_eq] at hle
  refine ⟨hrounded, by omega, hnormal, ?_⟩
  rcases hnormal with hzero | hlarge
  · have hexact : roundHalfEven (m * 2 ^ s) (2 ^ s) = m := roundHalfEven_mul m (Nat.two_pow_pos s)
    have hs : s = 0 := by omega
    rw [hs, pow_zero, Nat.mul_one] at hexact
    rw [hs, pow_zero, hexact]
    exact hpos
  · omega

/-- **Rounding a significand gives the bits of its units.** -/
theorem pack_round_toNat (sign : Sign) {m : Nat} {e : ℤ} (hpos : 0 < m) (hleast : -1074 ≤ e) :
    (pack Format.binary64 (UnpackedFloat.round Format.binary64 sign m e)).toNat
      = signBit sign * 2 ^ 63 + roundedBits (m * 2 ^ (e + 1074).toNat) unitsPerOne := by
  unfold UnpackedFloat.round decreaseExponent
  rw [targetExponent_eq]
  dsimp only
  rw [Nat.shiftLeft_eq]
  generalize ht : max ((Nat.log2 m : ℤ) + e - 52) (-1074) = t
  generalize hk : (e - t).toNat = k
  -- The significand is made so long that digits are only shifted out from here on.
  have hwider : 0 < m * 2 ^ k := Nat.mul_pos hpos (Nat.two_pow_pos k)
  have hlog := log2_mul_two_pow hpos k
  have hunits : m * 2 ^ (e + 1074).toNat = m * 2 ^ k * 2 ^ (e - k + 1074).toNat := by
    rw [mul_assoc, ← pow_add]
    congr 2
    omega
  rw [hunits]
  generalize m * 2 ^ k = m' at hwider hlog ⊢
  have ht' : max ((Nat.log2 m' : ℤ) + (e - k) - 52) (-1074) = t := by omega
  have hleast' : -1074 ≤ e - k := by omega
  have hbelow : e - k ≤ t := by omega
  generalize e - k = e' at ht' hleast' hbelow ⊢
  obtain ⟨s, hs⟩ : ∃ s : Nat, (t - e').toNat = s := ⟨_, rfl⟩
  obtain ⟨hrounded, hwide, hnormal, hsome⟩ := rounded_significand (s := s) (a := (e' + 1074).toNat) hwider (by omega)
  have hfirst : shiftToTargetExponent Format.binary64 m' e' .exact =
      ((⟨m', false, false⟩ : ExtendedMantissa) >>> s, t) := by
    unfold shiftToTargetExponent shiftToExponent
    rw [targetExponent_eq, ht']
    dsimp only
    have hexponent : e' + (s : ℤ) = t := by omega
    rw [hs, hexponent]
    rfl
  unfold roundWithAccuracy
  rw [hfirst]
  dsimp only
  rw [roundedMantissa_shift]
  obtain ⟨hfinal, hpacked⟩ := pack_carry_toNat sign hsome hwide (t := t) (by omega) (by omega)
  have hfield : (t + 1074).toNat = s + (e' + 1074).toNat := by omega
  rw [dif_neg hfinal.ne', hpacked, roundedBits_eq, hrounded, hfield]

/-! ## Sums -/

/-- The sign of the model's doubles. -/
def signOf (negative : Bool) : Sign := if negative then .negative else .positive

theorem signBits_eq (negative : Bool) : signBit (signOf negative) * 2 ^ 63 = signBits negative := by
  cases negative <;> rfl

theorem apply_signOf (negative : Bool) (n : Nat) : (signOf negative).apply n = signed negative n := by
  cases negative <;> rfl

/-- What a finite double is unpacked to has its units. -/
theorem unpack_of_parts {x : Float} {negative : Bool} {units : Nat} (h : parts x = .finite negative units) :
    units = 0 ∧ x.toModel.unpack = .zero (signOf negative) ∨
      ∃ m e hpos, x.toModel.unpack = .finite (signOf negative) m e hpos ∧ -1074 ≤ e ∧
        units = m * 2 ^ (e + 1074).toNat := by
  obtain ⟨bits, hfinite, hbits, rfl⟩ := bits_of_parts h
  rw [infinityBits_eq] at hfinite
  rw [← signBits_eq] at hbits
  have hone := signBit_le (signOf negative)
  rcases hasWord_bitsOf x with ⟨hfull, -, -⟩ | hword
  · omega
  generalize x.toModel.unpack = unpacked at hword ⊢
  cases hword with
  | @zero sign _ hword =>
    have hzero : bits = 0 := by omega
    have hsign : sign = signOf negative := signBit_inj (by omega)
    subst hzero hsign
    exact .inl ⟨rfl, rfl⟩
  | @infinity sign _ hword =>
    omega
  | @finite sign m _ e hpos hcanonical hword =>
    obtain ⟨hnarrow, hleast, hgreatest, hnormal⟩ := hcanonical
    have hlow := signBit_le sign
    have hsign : sign = signOf negative := signBit_inj (by omega)
    subst hsign
    have hm : bits = (e + 1074).toNat * 2 ^ 52 + m := by omega
    refine .inr ⟨m, e, hpos, rfl, hleast, ?_⟩
    rw [hm]
    exact unitsOfBits_scaled hnarrow.le (by omega)

theorem bitsOf_add (x y : Float) :
    bitsOf (x + y) =
      (pack Format.binary64 (UnpackedFloat.add Format.binary64 x.toModel.unpack y.toModel.unpack)).toNat :=
  rfl

/-- Packing a significand with a sign gives the bits of its units. -/
theorem pack_normalize_toNat {i e : ℤ} (hnonzero : i ≠ 0) (hleast : -1074 ≤ e) (sign : Sign) :
    (pack Format.binary64 (UnpackedFloat.normalize Format.binary64 i e sign)).toNat
      = signBits (decide (i < 0)) + roundedBits (i.natAbs * 2 ^ (e + 1074).toNat) unitsPerOne := by
  unfold UnpackedFloat.normalize
  rcases lt_trichotomy i 0 with hneg | hzero | hpos
  · have hcompare : compare i 0 = .lt := Int.compare_eq_lt.2 hneg
    have habs : (-i).toNat = i.natAbs := by omega
    rw [hcompare, decide_eq_true hneg, ← habs]
    exact pack_round_toNat .negative (by omega) hleast
  · exact absurd hzero hnonzero
  · have hcompare : compare i 0 = .gt := Int.compare_eq_gt.2 hpos
    have habs : i.toNat = i.natAbs := by omega
    rw [hcompare, decide_eq_false (by omega), ← habs]
    exact pack_round_toNat .positive (by omega) hleast

/-- A magnitude that is not zero keeps its sign. -/
theorem ofUnits_signed {negative : Bool} {units : Nat} (hpos : 0 < units) :
    ofUnits (decide (signed negative units < 0)) (signed negative units).natAbs = ofUnits negative units := by
  cases negative
  · have hsign : ¬ signed false units < 0 := by
      show ¬ (units : ℤ) < 0
      omega
    rw [decide_eq_false hsign]
    rfl
  · have hsign : signed true units < 0 := by
      show -(units : ℤ) < 0
      omega
    have habs : (signed true units).natAbs = units := by
      show (-(units : ℤ)).natAbs = units
      omega
    rw [decide_eq_true hsign, habs]

/-- Packing what a finite double is unpacked to gives its bits. -/
theorem pack_unpack_toNat {x : Float} (hx : IsFinite x) :
    (pack Format.binary64 x.toModel.unpack).toNat = bitsOf x := by
  obtain ⟨negative, units, hparts⟩ := hx
  rcases hasWord_bitsOf x with ⟨hfull, hsome, -⟩ | hword
  · rw [parts_eq, if_pos hfull, if_neg hsome] at hparts
    cases hparts
  · exact hword.pack_toNat

/-- Significands are added with the smaller of their exponents. -/
theorem add_finite (s s' : Sign) (m m' : Nat) (e e' : ℤ) (hpos : 0 < m) (hpos' : 0 < m') :
    UnpackedFloat.add Format.binary64 (.finite s m e hpos) (.finite s' m' e' hpos')
      = normalize Format.binary64
          (s.apply (m * 2 ^ (e - min e e').toNat : Nat) + s'.apply (m' * 2 ^ (e' - min e e').toNat : Nat))
          (min e e') .positive := by
  rw [← Nat.shiftLeft_eq, ← Nat.shiftLeft_eq]
  rfl

/-- Of two zeros the sign stays if they have it both. -/
theorem add_zeros (s s' : Sign) :
    UnpackedFloat.add Format.binary64 (.zero s) (.zero s') = if s == s' then .zero s else .zero .positive := rfl

/-- Units are counted from the smaller exponent on. -/
theorem units_decreased (m : Nat) {e smaller : ℤ} (hleast : -1074 ≤ smaller) (hle : smaller ≤ e) :
    m * 2 ^ (e - smaller).toNat * 2 ^ (smaller + 1074).toNat = m * 2 ^ (e + 1074).toNat := by
  rw [mul_assoc, ← pow_add]
  congr 2
  omega

section

variable {x y : Float} {negative negative' : Bool} {u v : Nat}

theorem unpack_zero (h : parts x = .finite negative 0) : x.toModel.unpack = .zero (signOf negative) := by
  rcases unpack_of_parts h with ⟨-, hunpack⟩ | ⟨m, e, hpos, -, -, hm⟩
  · exact hunpack
  · have := Nat.mul_pos hpos (Nat.two_pow_pos (e + 1074).toNat)
    omega

theorem unpack_pos (h : parts x = .finite negative u) (hu : 0 < u) :
    ∃ m e hpos, x.toModel.unpack = .finite (signOf negative) m e hpos ∧ -1074 ≤ e ∧ u = m * 2 ^ (e + 1074).toNat := by
  rcases unpack_of_parts h with ⟨hzero, -⟩ | hunpack
  · omega
  · exact hunpack

/-- What is added up for two finite doubles that are not zero. -/
theorem add_unpack (hx : parts x = .finite negative u) (hy : parts y = .finite negative' v) (hu : 0 < u) (hv : 0 < v) :
    ∃ (i e : ℤ), -1074 ≤ e ∧ signed negative u + signed negative' v = i * (2 ^ (e + 1074).toNat : Nat) ∧
      UnpackedFloat.add Format.binary64 x.toModel.unpack y.toModel.unpack
        = normalize Format.binary64 i e .positive := by
  obtain ⟨m, e, hpos, hunpack, hleast, hm⟩ := unpack_pos hx hu
  obtain ⟨m', e', hpos', hunpack', hleast', hm'⟩ := unpack_pos hy hv
  refine ⟨signed negative (m * 2 ^ (e - min e e').toNat) + signed negative' (m' * 2 ^ (e' - min e e').toNat),
    min e e', by omega, ?_, ?_⟩
  · rw [add_mul, ← signed_mul, ← signed_mul, units_decreased m (by omega) (by omega),
      units_decreased m' (by omega) (by omega), hm, hm']
  · rw [hunpack, hunpack', add_finite, apply_signOf, apply_signOf]

/-- Zero adds nothing. -/
theorem zero_add_eq (hx : parts x = .finite negative 0) (hy : parts y = .finite negative' v) (hv : 0 < v) :
    x + y = y := by
  obtain ⟨m, e, hpos, hunpack, -, -⟩ := unpack_pos hy hv
  apply bitsOf_inj
  rw [bitsOf_add, ← pack_unpack_toNat ⟨_, _, hy⟩, unpack_zero hx, hunpack]
  rfl

theorem add_zero_eq (hx : parts x = .finite negative u) (hy : parts y = .finite negative' 0) (hu : 0 < u) :
    x + y = x := by
  obtain ⟨m, e, hpos, hunpack, -, -⟩ := unpack_pos hx hu
  apply bitsOf_inj
  rw [bitsOf_add, ← pack_unpack_toNat ⟨_, _, hx⟩, unpack_zero hy, hunpack]
  rfl

/-- **The sum of two finite doubles is their exact sum, rounded once.** -/
theorem add_eq_ofUnits (hx : parts x = .finite negative u) (hy : parts y = .finite negative' v)
    (hsum : signed negative u + signed negative' v ≠ 0) :
    x + y = ofUnits (decide (signed negative u + signed negative' v < 0))
      (signed negative u + signed negative' v).natAbs := by
  rcases Nat.eq_zero_or_pos u with rfl | hu
  · rw [signed_zero, zero_add] at hsum ⊢
    have hv : 0 < v := Nat.pos_of_ne_zero fun hzero => hsum (hzero ▸ signed_zero negative')
    rw [ofUnits_signed hv, ofUnits_parts hy, zero_add_eq hx hy hv]
  rcases Nat.eq_zero_or_pos v with rfl | hv
  · rw [signed_zero, add_zero, ofUnits_signed hu, ofUnits_parts hx, add_zero_eq hx hy hu]
  · obtain ⟨i, e, hleast, hsame, hadd⟩ := add_unpack hx hy hu hv
    have hpos : (0 : ℤ) < (2 ^ (e + 1074).toNat : Nat) := by exact_mod_cast Nat.two_pow_pos _
    have hi : i ≠ 0 := by
      rintro rfl
      rw [zero_mul] at hsame
      exact hsum hsame
    have hsign : i * (2 ^ (e + 1074).toNat : Nat) < 0 ↔ i < 0 :=
      ⟨fun h => neg_of_mul_neg_left h hpos.le, fun h => mul_neg_of_neg_of_pos h hpos⟩
    apply bitsOf_inj
    unfold ofUnits
    rw [bitsOf_add, hadd, pack_normalize_toNat hi hleast, bitsOf_ofRatio, hsame, Int.natAbs_mul, Int.natAbs_natCast,
      decide_eq_decide.2 hsign]

/-- Doubles that cancel leave a zero. -/
theorem parts_add_eq_zero (hx : parts x = .finite negative u) (hy : parts y = .finite negative' v)
    (hsum : signed negative u + signed negative' v = 0) : ∃ sign, parts (x + y) = .finite sign 0 := by
  have hzero (sign : Sign) (hbits : bitsOf (x + y) = (pack Format.binary64 (.zero sign)).toNat) :
      ∃ sign, parts (x + y) = .finite sign 0 := by
    have hword : (pack Format.binary64 (.zero sign)).toNat = signBit sign * 2 ^ 63 := (HasWord.zero rfl).pack_toNat
    rw [hword] at hbits
    cases sign
    · exact ⟨true, @parts_eq_finite _ true 0 hbits (by decide)⟩
    · exact ⟨false, @parts_eq_finite _ false 0 hbits (by decide)⟩
  rcases Nat.eq_zero_or_pos u with rfl | hu
  · rw [signed_zero, zero_add] at hsum
    cases eq_zero_of_signed hsum
    have hadd := bitsOf_add x y
    rw [unpack_zero hx, unpack_zero hy, add_zeros] at hadd
    split at hadd
    · exact hzero (signOf negative) hadd
    · exact hzero .positive hadd
  have hv : 0 < v := by
    rw [Nat.pos_iff_ne_zero]
    rintro rfl
    rw [signed_zero, add_zero] at hsum
    exact hu.ne' (eq_zero_of_signed hsum)
  obtain ⟨i, e, hleast, hsame, hadd⟩ := add_unpack hx hy hu hv
  have hpos : (0 : ℤ) < (2 ^ (e + 1074).toNat : Nat) := by exact_mod_cast Nat.two_pow_pos _
  have hi : i = 0 := by
    rw [hsum] at hsame
    exact (mul_eq_zero.1 hsame.symm).resolve_right hpos.ne'
  rw [hi] at hadd
  exact hzero .positive ((bitsOf_add x y).trans (by rw [hadd]; rfl))

end

end MiniScheme.Binary64
