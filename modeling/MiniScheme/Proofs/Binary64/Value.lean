import MiniScheme.Proofs.Binary64.Rounding
import MiniScheme.Proofs.Binary64.Words
import Mathlib.Algebra.Order.Field.Rat
import Mathlib.Algebra.Order.Ring.Rat
import Mathlib.Data.Rat.Cast.Order
import Mathlib.Tactic.FieldSimp
import Mathlib.Tactic.Positivity

/-!
# The numbers that doubles stand for

A finite double stands for an exact quotient, its units over `2 ^ 1074`.

* `IsFinite`, `signedUnits`, `value` — the doubles that stand for a number, and the number.
* `parts_ofRatio`, `ofUnits_parts` — taking a double apart and putting it together again.
* `Nearest` — rounding to the nearest double, without saying how it is done.
* `nearest_ofRatio` — that is what `ofRatio` does.
-/

namespace MiniScheme.Binary64

/-! ## Magnitudes -/

/-- The units of the double with these bits and no sign. -/
def unitsOfBits (bits : Nat) : Nat := unitsOfFields (bits / Nat.pow 2 52) (bits % Nat.pow 2 52)

/-- The units of bits that are written as a step of the exponent field and a significand. -/
theorem unitsOfBits_scaled {k R : Nat} (hwide : R ≤ 2 ^ 53) (hnormal : k = 0 ∨ 2 ^ 52 ≤ R) :
    unitsOfBits (k * 2 ^ 52 + R) = R * 2 ^ k := by
  unfold unitsOfBits unitsOfFields
  rw [Nat.pow_eq, Nat.pow_eq]
  by_cases hsubnormal : R < 2 ^ 52
  · have hzero : k = 0 := by omega
    subst hzero
    rw [if_pos (by omega), pow_zero]
    omega
  by_cases hcarry : R = 2 ^ 53
  · have hfield : (k * 2 ^ 52 + R) / 2 ^ 52 = k + 2 := by omega
    have hfraction : (k * 2 ^ 52 + R) % 2 ^ 52 = 0 := by omega
    rw [hfield, hfraction, if_neg (by omega), hcarry]
    show (2 ^ 52 + 0) * 2 ^ (k + 1) = _
    rw [pow_succ]
    ring
  · have hfield : (k * 2 ^ 52 + R) / 2 ^ 52 = k + 1 := by omega
    have hfraction : 2 ^ 52 + (k * 2 ^ 52 + R) % 2 ^ 52 = R := by omega
    rw [hfield, hfraction, if_neg (by omega)]
    rfl

/-- All bits can be written so. -/
theorem exists_scaled (bits : Nat) : ∃ k R, bits = k * 2 ^ 52 + R ∧ R < 2 ^ 53 ∧ (k = 0 ∨ 2 ^ 52 ≤ R) :=
  ⟨bits / 2 ^ 52 - 1, bits - (bits / 2 ^ 52 - 1) * 2 ^ 52, by omega, by omega, by omega⟩

/-- A double has whole steps of `2 ^ k` units, or less units than the doubles whose significand takes such steps. -/
theorem unitsOfBits_steps (k bits : Nat) :
    2 ^ k ∣ unitsOfBits bits ∨ 0 < k ∧ unitsOfBits bits < 2 ^ 52 * 2 ^ k := by
  obtain ⟨k', R, rfl, hnarrow, hnormal⟩ := exists_scaled bits
  rw [unitsOfBits_scaled hnarrow.le hnormal]
  by_cases hstep : k ≤ k'
  · exact .inl (Dvd.dvd.mul_left (pow_dvd_pow 2 hstep) R)
  · refine .inr ⟨by omega, ?_⟩
    have hpower : 2 ^ (k' + 1) ≤ 2 ^ k := Nat.pow_le_pow_right (by decide) (by omega)
    have hpos : 0 < 2 ^ k' := Nat.two_pow_pos k'
    rw [pow_succ] at hpower
    nlinarith

/-- The units of a magnitude that is a double come back from its bits. -/
theorem rounded_unitsOfBits (bits : Nat) {d : Nat} (hd : 0 < d) : rounded (unitsOfBits bits * d) d = bits := by
  have hnarrow : bits % Nat.pow 2 52 < Nat.pow 2 52 := Nat.mod_lt _ (Nat.pow_pos (by decide))
  unfold unitsOfBits
  rw [rounded_unitsOfFields _ hnarrow hd]
  exact Nat.div_add_mod' _ _

theorem roundedBits_unitsOfBits {bits : Nat} (hfinite : bits < infinityBits) :
    roundedBits (unitsOfBits bits) unitsPerOne = bits := by
  rw [roundedBits_eq, rounded_unitsOfBits bits unitsPerOne_pos]
  omega

/-- More bits stand for more units. -/
theorem unitsOfBits_lt_iff {a b : Nat} (ha : a < infinityBits) (hb : b < infinityBits) :
    unitsOfBits a < unitsOfBits b ↔ a < b := by
  have hmono {a b : Nat} (ha : a < infinityBits) (hb : b < infinityBits) (h : unitsOfBits a ≤ unitsOfBits b) :
      a ≤ b := by
    rw [← roundedBits_unitsOfBits ha, ← roundedBits_unitsOfBits hb]
    exact roundedBits_mono unitsPerOne_pos unitsPerOne_pos (Nat.mul_le_mul_right _ h)
  constructor
  · intro h
    refine Nat.lt_of_le_of_ne (hmono ha hb h.le) ?_
    rintro rfl
    exact Nat.lt_irrefl _ h
  · intro h
    by_contra hle
    have := hmono hb ha (Nat.le_of_not_lt hle)
    omega

/-! ## The nearest magnitude -/

/-- No multiple of the denominator is nearer than the rounded one, and another as near only if that one is even. -/
theorem roundHalfEven_nearest {d : Nat} (hd : 0 < d) (n w : Nat) :
    |(n : ℤ) - roundHalfEven n d * d| ≤ |(n : ℤ) - w * d| ∧
      (|(n : ℤ) - w * d| = |(n : ℤ) - roundHalfEven n d * d| → w = roundHalfEven n d ∨ roundHalfEven n d % 2 = 0) := by
  obtain ⟨habove, hbelow, hevenAbove, hevenBelow⟩ := roundHalfEven_spec hd n
  generalize roundHalfEven n d = r at *
  rcases lt_trichotomy w r with hless | rfl | hmore
  · have hstep : w * d + d ≤ r * d := by nlinarith
    have hfar : |(n : ℤ) - w * d| = n - w * d := abs_of_nonneg (by zify at *; omega)
    rw [hfar]
    zify at *
    rcases abs_cases ((n : ℤ) - r * d) with ⟨hdistance, -⟩ | ⟨hdistance, -⟩ <;> rw [hdistance] <;>
      exact ⟨by omega, fun htie => .inr (by omega)⟩
  · exact ⟨le_refl _, fun _ => .inl rfl⟩
  · have hstep : r * d + d ≤ w * d := by nlinarith
    have hfar : |(n : ℤ) - w * d| = w * d - n := by
      rw [abs_sub_comm]
      exact abs_of_nonneg (by zify at *; omega)
    rw [hfar]
    zify at *
    rcases abs_cases ((n : ℤ) - r * d) with ⟨hdistance, -⟩ | ⟨hdistance, -⟩ <;> rw [hdistance] <;>
      exact ⟨by omega, fun htie => .inr (by omega)⟩

/-- The rounded bits are a step of the exponent field and a significand, so they have these units. -/
theorem unitsOfBits_rounded (n : Nat) {d : Nat} (hd : 0 < d) :
    unitsOfBits (rounded n d) = roundHalfEven n (d * 2 ^ beyond n d) * 2 ^ beyond n d := by
  have hbound := rounded_le n hd
  unfold rounded at hbound ⊢
  rw [Nat.pow_eq, Nat.pow_eq] at *
  apply unitsOfBits_scaled
  · omega
  · rcases Nat.eq_zero_or_pos (beyond n d) with hzero | hnormal
    · exact .inl hzero
    · exact .inr (le_roundHalfEven_beyond hd hnormal).2

/-- **No magnitude is nearer than the rounded one**, and another as near only if the rounded bits are even. -/
theorem rounded_nearest (n : Nat) {d : Nat} (hd : 0 < d) (bits : Nat) :
    |(n : ℤ) - unitsOfBits (rounded n d) * d| ≤ |(n : ℤ) - unitsOfBits bits * d| ∧
      (|(n : ℤ) - unitsOfBits bits * d| = |(n : ℤ) - unitsOfBits (rounded n d) * d| →
        unitsOfBits bits = unitsOfBits (rounded n d) ∨ rounded n d % 2 = 0) := by
  have hstep : 0 < d * 2 ^ beyond n d := Nat.mul_pos hd (Nat.two_pow_pos _)
  have hnear := roundHalfEven_nearest hstep n
  have hparity : rounded n d % 2 = roundHalfEven n (d * 2 ^ beyond n d) % 2 := by
    unfold rounded
    rw [Nat.pow_eq, Nat.pow_eq]
    omega
  have hunits (w : Nat) : ((w * 2 ^ beyond n d : Nat) : ℤ) * d = w * (d * 2 ^ beyond n d : Nat) := by
    push_cast
    ring
  rw [unitsOfBits_rounded n hd, hparity, hunits]
  rcases unitsOfBits_steps (beyond n d) bits with ⟨w, hw⟩ | ⟨hnormal, hsmall⟩
  · rw [hw, Nat.mul_comm (2 ^ beyond n d) w, hunits]
    refine ⟨(hnear w).1, fun htie => ?_⟩
    rcases (hnear w).2 htie with rfl | heven
    · exact .inl rfl
    · exact .inr heven
  -- A double with a finer significand is below the quotient and below a double that is no farther.
  · obtain ⟨hscaled, -⟩ := le_roundHalfEven_beyond hd hnormal
    have hedge := (hnear (2 ^ 52)).1
    have hfar : |(n : ℤ) - (2 ^ 52 : Nat) * (d * 2 ^ beyond n d : Nat)| < |(n : ℤ) - unitsOfBits bits * d| := by
      have hbelow : unitsOfBits bits * d < 2 ^ 52 * (d * 2 ^ beyond n d) := by nlinarith
      have habove : 2 ^ 52 * (d * 2 ^ beyond n d) ≤ n := by nlinarith
      zify at hbelow habove ⊢
      rw [abs_of_nonneg (by linarith), abs_of_nonneg (by linarith)]
      linarith
    exact ⟨by linarith, fun htie => by linarith⟩

/-! ## Finite doubles -/

/-- A double that is neither infinite nor a NaN. -/
def IsFinite (x : Float) : Prop := ∃ negative units, parts x = .finite negative units

instance : DecidablePred IsFinite := fun x =>
  match h : parts x with
  | .finite negative units => isTrue ⟨negative, units, h⟩
  | .nan => isFalse (by rintro ⟨negative, units, hparts⟩; rw [h] at hparts; cases hparts)
  | .infinite _ => isFalse (by rintro ⟨negative, units, hparts⟩; rw [h] at hparts; cases hparts)

/-- A magnitude with a sign in front. -/
def signed (negative : Bool) (n : Nat) : ℤ := if negative then -n else n

@[simp] theorem signed_false (n : Nat) : signed false n = n := rfl

theorem signed_zero (negative : Bool) : signed negative 0 = 0 := by
  cases negative <;> rfl

@[simp] theorem signed_true (n : Nat) : signed true n = -n := rfl

theorem natAbs_signed (negative : Bool) (n : Nat) : (signed negative n).natAbs = n := by
  cases negative <;> simp

/-- The units of a finite double, with its sign. -/
def signedUnits (x : Float) : ℤ :=
  match parts x with
  | .finite negative units => signed negative units
  | _ => 0

/-- The number that a finite double stands for. -/
def value (x : Float) : ℚ := signedUnits x / unitsPerOne

/-- The bits of a sign. -/
def signBits (negative : Bool) : Nat := if negative then 2 ^ 63 else 0

@[simp] theorem signBits_false : signBits false = 0 := rfl

@[simp] theorem signBits_true : signBits true = 2 ^ 63 := rfl

theorem infinityBits_eq : infinityBits = 2047 * 2 ^ 52 := rfl

theorem signedUnits_eq {x : Float} {negative : Bool} {units : Nat} (h : parts x = .finite negative units) :
    signedUnits x = signed negative units := by
  unfold signedUnits
  rw [h]

/-- How a double is taken apart. -/
theorem parts_eq (x : Float) :
    parts x =
      if bitsOf x / 2 ^ 52 % 2 ^ 11 = 2047 then
        if bitsOf x % 2 ^ 52 = 0 then .infinite (decide (2 ^ 63 ≤ bitsOf x)) else .nan
      else
        .finite (decide (2 ^ 63 ≤ bitsOf x))
          (unitsOfFields (bitsOf x / 2 ^ 52 % 2 ^ 11) (bitsOf x % 2 ^ 52)) := rfl

/-- The parts of a double with these bits. -/
theorem parts_eq_finite {x : Float} {negative : Bool} {bits : Nat} (hbits : bitsOf x = signBits negative + bits)
    (hfinite : bits < infinityBits) : parts x = .finite negative (unitsOfBits bits) := by
  rw [infinityBits_eq] at hfinite
  have hsign : decide (2 ^ 63 ≤ bitsOf x) = negative := by
    cases negative
    · rw [signBits_false] at hbits
      exact decide_eq_false (by omega)
    · rw [signBits_true] at hbits
      exact decide_eq_true (by omega)
  have hfield : bitsOf x / 2 ^ 52 % 2 ^ 11 = bits / 2 ^ 52 := by
    cases negative <;> simp only [signBits_false, signBits_true] at hbits <;> omega
  have hfraction : bitsOf x % 2 ^ 52 = bits % 2 ^ 52 := by
    cases negative <;> simp only [signBits_false, signBits_true] at hbits <;> omega
  rw [parts_eq, hfield, hfraction, if_neg (by omega), hsign]
  rfl

/-- The bits of a double with these parts. -/
theorem bits_of_parts {x : Float} {negative : Bool} {units : Nat} (h : parts x = .finite negative units) :
    ∃ bits < infinityBits, bitsOf x = signBits negative + bits ∧ units = unitsOfBits bits := by
  have hwidth := bitsOf_lt x
  have hsplit : bitsOf x = signBits (decide (2 ^ 63 ≤ bitsOf x)) + bitsOf x % 2 ^ 63 := by
    by_cases hhigh : 2 ^ 63 ≤ bitsOf x
    · rw [decide_eq_true hhigh, signBits_true]
      omega
    · rw [decide_eq_false hhigh, signBits_false]
      omega
  have hfinite : bitsOf x % 2 ^ 63 < infinityBits := by
    by_contra hbeyond
    rw [infinityBits_eq] at hbeyond
    rw [parts_eq, if_pos (by omega)] at h
    split at h <;> cases h
  rw [parts_eq_finite hsplit hfinite] at h
  obtain ⟨rfl, rfl⟩ := Parts.finite.inj h
  exact ⟨_, hfinite, hsplit, rfl⟩

/-- A double has the bits that its units round to, behind its sign. -/
theorem bitsOf_of_parts {x : Float} {negative : Bool} {units : Nat} (h : parts x = .finite negative units) :
    bitsOf x = signBits negative + roundedBits units unitsPerOne ∧
      roundedBits units unitsPerOne < infinityBits := by
  obtain ⟨bits, hfinite, hbits, rfl⟩ := bits_of_parts h
  rw [roundedBits_unitsOfBits hfinite]
  exact ⟨hbits, hfinite⟩

theorem roundedBits_le (n d : Nat) : roundedBits n d ≤ infinityBits := by
  rw [roundedBits_eq]
  exact Nat.min_le_right _ _

/-- The bits of a rounded quotient. -/
theorem bitsOf_ofRatio (negative : Bool) (n d : Nat) :
    bitsOf (ofRatio negative n d) = signBits negative + roundedBits n d := by
  have hle := roundedBits_le n d
  rw [infinityBits_eq] at hle
  have hsign : (if negative then Nat.pow 2 63 else 0) = signBits negative := rfl
  unfold ofRatio
  rw [hsign]
  cases negative
  · rw [signBits_false]
    exact bitsOf_ofBits (by omega) (by omega)
  · rw [signBits_true]
    exact bitsOf_ofBits (by omega) (by omega)

/-- The parts of a rounded quotient. -/
theorem parts_ofRatio (negative : Bool) {n d : Nat} (hfinite : roundedBits n d < infinityBits) :
    parts (ofRatio negative n d) = .finite negative (unitsOfBits (roundedBits n d)) :=
  parts_eq_finite (bitsOf_ofRatio negative n d) hfinite

/-- **A finite double is put together again from its parts.** -/
theorem ofUnits_parts {x : Float} {negative : Bool} {units : Nat} (h : parts x = .finite negative units) :
    ofUnits negative units = x := by
  apply bitsOf_inj
  unfold ofUnits
  rw [bitsOf_ofRatio, (bitsOf_of_parts h).1]

theorem value_eq {x : Float} {negative : Bool} {units : Nat} (h : parts x = .finite negative units) :
    value x = signed negative units / unitsPerOne := by
  unfold value
  rw [signedUnits_eq h]

theorem unitsPerOne_pos_rat : (0 : ℚ) < unitsPerOne := by
  exact_mod_cast unitsPerOne_pos

theorem abs_value_eq {x : Float} {negative : Bool} {units : Nat} (h : parts x = .finite negative units) :
    |value x| = units / unitsPerOne := by
  rw [value_eq h, abs_div, abs_of_pos unitsPerOne_pos_rat, ← Int.cast_abs, Int.abs_eq_natAbs, natAbs_signed]
  rfl

/-- There is one infinity of each sign. -/
theorem bits_of_infinite {x : Float} {negative : Bool} (h : parts x = .infinite negative) :
    bitsOf x = signBits negative + infinityBits := by
  have hwidth := bitsOf_lt x
  rw [infinityBits_eq]
  rw [parts_eq] at h
  split at h
  · split at h
    · have hsign := Parts.infinite.inj h
      subst hsign
      by_cases hhigh : 2 ^ 63 ≤ bitsOf x
      · rw [decide_eq_true hhigh, signBits_true]
        omega
      · rw [decide_eq_false hhigh, signBits_false]
        omega
    · cases h
  · cases h

/-! ## The nearest double -/

/-- The middle between the greatest finite double and the power of two that would be next. -/
def limit : Nat := Nat.pow 2 1024 - Nat.pow 2 970

/-- A finite double such that no other is nearer to the quotient, and another as near only if the last digit of its
significand is zero. From the limit on, infinity would take its place. -/
structure Nearest (q : ℚ) (x : Float) : Prop where
  finite : IsFinite x
  inRange : |q| < limit
  closest : ∀ y, IsFinite y → |q - value x| ≤ |q - value y|
  even : ∀ y, IsFinite y → |q - value y| = |q - value x| → value y = value x ∨ bitsOf x % 2 = 0

/-- A number is its magnitude behind its sign. -/
theorem signed_natAbs (n : ℤ) : signed (decide (n < 0)) n.natAbs = n := by
  rcases lt_or_ge n 0 with hneg | hpos
  · rw [decide_eq_true hneg, signed_true]
    omega
  · rw [decide_eq_false (by omega), signed_false]
    omega

/-- A magnitude that is not zero shows its sign. -/
theorem negative_of_signed {negative negative' : Bool} {n : Nat} (hpos : 0 < n)
    (h : signed negative n = signed negative' n) : negative = negative' := by
  cases negative <;> cases negative' <;> simp only [signed_false, signed_true] at h <;> first | rfl | omega

theorem abs_signed (negative : Bool) (n : Nat) : |signed negative n| = n := by
  rw [Int.abs_eq_natAbs, natAbs_signed]

theorem eq_zero_of_signed {negative : Bool} {n : Nat} (h : signed negative n = 0) : n = 0 := by
  rw [← natAbs_signed negative n, h, Int.natAbs_zero]

theorem signed_mul (negative : Bool) (n d : Nat) : signed negative (n * d) = signed negative n * d := by
  cases negative <;> simp

/-- Two magnitudes with one sign are as far from each other as without it. -/
theorem abs_signed_sub (negative : Bool) (a b : Nat) : |signed negative a - signed negative b| = |(a : ℤ) - b| := by
  cases negative
  · rfl
  · show |-(a : ℤ) - -b| = _
    rw [neg_sub_neg, abs_sub_comm]

/-- Two magnitudes with different signs lie on either side of zero. -/
theorem abs_signed_sub_not (negative : Bool) (a b : Nat) :
    |signed negative a - signed (!negative) b| = (a : ℤ) + b := by
  cases negative
  · show |(a : ℤ) - -b| = _
    rw [sub_neg_eq_add]
    exact abs_of_nonneg (by positivity)
  · show |-(a : ℤ) - b| = _
    rw [← neg_add', abs_neg]
    exact abs_of_nonneg (by positivity)

/-- No double, of whatever sign, is nearer to a quotient of units than what it rounds to. -/
theorem rounded_nearest_signed (negative : Bool) (n : Nat) {d : Nat} (hd : 0 < d) (negative' : Bool) (bits : Nat) :
    |signed negative n - signed negative (unitsOfBits (rounded n d)) * d| ≤
        |signed negative n - signed negative' (unitsOfBits bits) * d| ∧
      (|signed negative n - signed negative' (unitsOfBits bits) * d| =
          |signed negative n - signed negative (unitsOfBits (rounded n d)) * d| →
        signed negative' (unitsOfBits bits) = signed negative (unitsOfBits (rounded n d)) ∨ rounded n d % 2 = 0) := by
  obtain ⟨hnear, htie⟩ := rounded_nearest n hd bits
  rw [← signed_mul, ← signed_mul, abs_signed_sub]
  by_cases hsame : negative' = negative
  · subst hsame
    rw [abs_signed_sub]
    push_cast
    exact ⟨hnear, fun h => (htie h).imp_left (congrArg _)⟩
  -- Zero is a double too, and lies between.
  · have hother : negative' = !negative := by
      cases negative <;> cases negative' <;> first | rfl | exact absurd rfl hsame
    have hzeroUnits : unitsOfBits 0 = 0 := rfl
    obtain ⟨hzero, hzeroTie⟩ := rounded_nearest n hd 0
    have habs : |(n : ℤ)| = n := Int.natAbs_natCast n ▸ Int.abs_eq_natAbs _
    rw [hzeroUnits, Nat.cast_zero, zero_mul, sub_zero, habs] at hzero hzeroTie
    rw [hother, abs_signed_sub_not]
    push_cast
    have hpositive : (0 : ℤ) ≤ unitsOfBits bits * d := by positivity
    refine ⟨by linarith, fun h => ?_⟩
    have hnothing : (unitsOfBits bits : ℤ) * d = 0 := by linarith
    have hnone : unitsOfBits bits = 0 := by
      rcases mul_eq_zero.1 hnothing with hunits | hzeroDenominator
      · exact_mod_cast hunits
      · omega
    rcases hzeroTie (by linarith) with hunits | heven
    · left
      rw [hnone, ← hunits]
      cases negative <;> rfl
    · exact .inr heven

/-- Quotients from the limit on round to infinity. -/
theorem lt_limit {n d : Nat} (hd : 0 < d) (hfinite : roundedBits n d < infinityBits) : n < limit * d := by
  have hlimit : roundedBits limit 1 = infinityBits := by decide +kernel
  by_contra hbeyond
  have hmono : roundedBits limit 1 ≤ roundedBits n d := by
    apply roundedBits_mono Nat.one_pos hd
    rw [Nat.mul_one]
    exact Nat.le_of_not_lt hbeyond
  omega

/-- Distances of doubles from a quotient are compared in units over the denominator. -/
theorem distance_le_iff (n : ℤ) {d : Nat} (hd : 0 < d) (Y Z : ℤ) :
    |(n : ℚ) / d - Y / unitsPerOne| ≤ |(n : ℚ) / d - Z / unitsPerOne|
      ↔ |n * unitsPerOne - Y * d| ≤ |n * unitsPerOne - Z * d| := by
  have hd' : (0 : ℚ) < d := by exact_mod_cast hd
  have hpos := mul_pos hd' unitsPerOne_pos_rat
  have hscaled (Y : ℤ) : |(n : ℚ) / d - Y / unitsPerOne| = (|n * unitsPerOne - Y * d| : ℤ) / (d * unitsPerOne) := by
    push_cast
    rw [div_sub_div _ _ hd'.ne' unitsPerOne_pos_rat.ne', abs_div, abs_of_pos hpos, mul_comm (d : ℚ) (Y : ℚ)]
  rw [hscaled, hscaled, div_le_div_iff_of_pos_right hpos]
  exact_mod_cast Iff.rfl

/-- The sign is no matter of parity. -/
theorem signBits_add_mod_two (negative : Bool) (bits : Nat) : (signBits negative + bits) % 2 = bits % 2 := by
  cases negative
  · rw [signBits_false, Nat.zero_add]
  · rw [signBits_true]
    omega

/-- **Rounding gives the nearest double** to a quotient that does not round to infinity. -/
theorem nearest_ofRatio (negative : Bool) {n d : Nat} (hd : 0 < d) (hfinite : roundedBits n d < infinityBits) :
    Nearest (signed negative n / d) (ofRatio negative n d) := by
  have hparts := parts_ofRatio negative hfinite
  have hround : roundedBits n d = rounded (n * unitsPerOne) d := by
    rw [roundedBits_eq] at hfinite ⊢
    omega
  have hvalue := value_eq hparts
  rw [hround] at hvalue
  refine ⟨⟨_, _, hparts⟩, ?_, ?_, ?_⟩
  · have hd' : (0 : ℚ) < d := by exact_mod_cast hd
    have habs : |(signed negative n : ℚ)| = n := by
      rw [← Int.cast_abs, abs_signed]
      rfl
    rw [abs_div, abs_of_pos hd', div_lt_iff₀ hd', habs]
    exact_mod_cast lt_limit hd hfinite
  · rintro y ⟨negative', units', hy⟩
    obtain ⟨bits, -, -, rfl⟩ := bits_of_parts hy
    obtain ⟨hnear, -⟩ := rounded_nearest_signed negative (n * unitsPerOne) hd negative' bits
    rw [signed_mul] at hnear
    rw [hvalue, value_eq hy]
    exact (distance_le_iff _ hd _ _).2 hnear
  · rintro y ⟨negative', units', hy⟩ htie
    obtain ⟨bits, -, -, rfl⟩ := bits_of_parts hy
    obtain ⟨-, heven⟩ := rounded_nearest_signed negative (n * unitsPerOne) hd negative' bits
    rw [signed_mul] at heven
    rw [hvalue, value_eq hy] at htie ⊢
    have hdistance := le_antisymm ((distance_le_iff _ hd _ _).1 htie.le) ((distance_le_iff _ hd _ _).1 htie.ge)
    rcases heven hdistance with hunits | hparity
    · left
      rw [hunits]
    · right
      rw [bitsOf_ofRatio, hround, signBits_add_mod_two]
      exact hparity

end MiniScheme.Binary64
