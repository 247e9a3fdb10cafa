import MiniScheme.Primitive.Run
import MiniScheme.Proofs.Binary64.Halves
import MiniScheme.Proofs.Binary64.Sum

/-!
# Rounding to a whole number

* `rounded_eq` — rounding adds a half to the units, rounds the sum and drops what is beyond the point; the host never
  fails at that.
* `RoundsHalfUp` — the whole number nearest to a double is the result, and the greater one of two that are as near.
* `round_halfUp_iff` — that is so for all finite doubles but those that are named in `Overshoots`.
-/

namespace MiniScheme.Binary64

/-! ## Adding a half and rounding down -/

theorem parts_half : parts 0.5 = .finite false half := by
  decide +kernel

/-- The units of the greatest finite double. -/
def greatest : Nat := (Nat.pow 2 53 - 1) * Nat.pow 2 2045

theorem le_greatest {x : Float} {negative : Bool} {u : Nat} (hx : parts x = .finite negative u) : u ≤ greatest := by
  obtain ⟨bits, hfinite, -, rfl⟩ := bits_of_parts hx
  obtain ⟨k, R, rfl, hnarrow, hnormal⟩ := exists_scaled bits
  rw [infinityBits_eq] at hfinite
  rw [unitsOfBits_scaled hnarrow.le hnormal]
  have hR : R ≤ Nat.pow 2 53 - 1 := by
    rw [Nat.pow_eq]
    omega
  have hk : k ≤ 2045 := by omega
  rw [greatest]
  generalize 2045 = e at hk ⊢
  exact Nat.mul_le_mul hR (Nat.pow_le_pow_right (by decide) hk)

/-- Adding a half rounds the sum of the units. -/
theorem parts_add_half {x : Float} {negative : Bool} {u : Nat} (hx : parts x = .finite negative u) :
    ∃ negative' v, parts (x + 0.5) = .finite negative' v ∧
      signed negative' v = roundSigned (signed negative u + half) := by
  have hhalf : signed false half = half := rfl
  rw [← hhalf]
  by_cases hsum : signed negative u + signed false half = 0
  · obtain ⟨sign, hparts⟩ := parts_add_eq_zero hx parts_half hsum
    have hnothing : roundUnits 0 = 0 := roundUnits_representable ⟨0, rfl⟩
    refine ⟨sign, 0, hparts, ?_⟩
    rw [hsum, signed_zero]
    unfold roundSigned
    rw [Int.natAbs_zero, hnothing, signed_zero]
  · have hfinite : roundedBits (signed negative u + signed false half).natAbs unitsPerOne < infinityBits := by
      have hlast : roundedBits (greatest + half) unitsPerOne < infinityBits := by decide +kernel
      refine Nat.lt_of_le_of_lt (roundedBits_mono unitsPerOne_pos unitsPerOne_pos ?_) hlast
      apply Nat.mul_le_mul_right
      calc (signed negative u + signed false half).natAbs
          ≤ (signed negative u).natAbs + (signed false half).natAbs := Int.natAbs_add_le _ _
        _ = u + half := by rw [natAbs_signed, natAbs_signed]
        _ ≤ greatest + half := Nat.add_le_add_right (le_greatest hx) half
    refine ⟨_, _, ?_, rfl⟩
    rw [add_eq_ofUnits hx parts_half hsum, ← unitsOfBits_roundedBits hfinite]
    exact parts_ofRatio _ hfinite

/-- Rounding down divides the units. -/
theorem floor?_eq {y : Float} {negative : Bool} {v : Nat} (hy : parts y = .finite negative v) :
    floor? y = some (signed negative v / unitsPerOne) := by
  have hU := unitsPerOne_pos
  unfold floor?
  rw [hy]
  generalize unitsPerOne = U at hU ⊢
  cases negative
  · exact congrArg some (Int.natCast_ediv v U)
  · have hlow : (v + U - 1) / U * U ≤ v + U - 1 := Nat.div_mul_le_self _ _
    have hhigh : v + U - 1 < ((v + U - 1) / U + 1) * U := Nat.lt_mul_of_div_lt (Nat.lt_succ_self _) hU
    show some (-(((v + U - 1) / U : Nat) : ℤ)) = some (-(v : ℤ) / U)
    rw [Option.some.injEq]
    generalize (v + U - 1) / U = q at hlow hhigh ⊢
    have hnext : (q + 1) * U = q * U + U := Nat.succ_mul _ _
    have hnegated : -(q : ℤ) * U = -((q * U : Nat) : ℤ) := by
      push_cast
      exact Int.neg_mul _ _
    symm
    rw [Int.ediv_eq_iff_of_pos (by omega), hnegated]
    omega

/-- What doubles are rounded to. Infinities and NaN stay as they are. -/
def roundHalfUp (x : Float) : Float :=
  match parts x with
  | .finite negative u => ofInt (halfUp (signed negative u))
  | _ => x

theorem roundHalfUp_eq {x : Float} {negative : Bool} {u : Nat} (hx : parts x = .finite negative u) :
    roundHalfUp x = ofInt (halfUp (signed negative u)) := by
  rw [roundHalfUp, hx]

variable {x : Float} {negative : Bool} {u : Nat}

/-- The units of a finite double are a significand and a number of steps. -/
theorem units_eq (hx : parts x = .finite negative u) :
    ∃ m j, u = m * 2 ^ j ∧ m < 2 ^ 53 ∧ (j = 0 ∨ 2 ^ 52 ≤ m) := by
  obtain ⟨bits, -, -, rfl⟩ := bits_of_parts hx
  obtain ⟨k, R, rfl, hnarrow, hnormal⟩ := exists_scaled bits
  exact ⟨R, k, unitsOfBits_scaled hnarrow.le hnormal, hnarrow, hnormal⟩

theorem keeps_or_overshot (hx : parts x = .finite negative u) :
    Keeps (signed negative u) ∨ Overshot (signed negative u) := by
  obtain ⟨m, j, rfl, hnarrow, hnormal⟩ := units_eq hx
  cases negative
  · exact keeps_of_nonneg hnarrow hnormal
  · exact keeps_of_neg hnarrow hnormal

/-- Doubles that are greater are whole numbers. -/
theorem whole_of_large (hx : parts x = .finite negative u) : u ≤ 2 ^ 52 * unitsPerOne ∨ ∃ c, u = c * unitsPerOne := by
  obtain ⟨m, j, rfl, hnarrow, -⟩ := units_eq hx
  rcases Nat.lt_or_ge j 1074 with hfraction | hwhole
  · left
    have hsplit := unitsPerOne_eq_half
    have hstep : 2 ^ j ≤ half := by
      have hpos : 0 < 2 ^ (1073 - j) := Nat.two_pow_pos _
      rw [half_eq (j := j) (by omega)]
      exact Nat.le_mul_of_pos_left _ hpos
    calc m * 2 ^ j ≤ 2 ^ 53 * half := Nat.mul_le_mul hnarrow.le hstep
      _ = 2 ^ 52 * unitsPerOne := by omega
  · right
    exact ⟨m * 2 ^ (j - 1074), by rw [two_pow_eq hwhole, mul_assoc]⟩

/-! ## The result as a double -/

/-- Whole numbers that are not too great for a double are rounded to themselves. -/
theorem parts_ofInt {n : ℤ} (hrepresentable : Representable (n.natAbs * unitsPerOne))
    (hfinite : roundedBits n.natAbs 1 < infinityBits) :
    parts (ofInt n) = .finite (decide (n < 0)) (n.natAbs * unitsPerOne) := by
  have hsame : roundedBits n.natAbs 1 = roundedBits (n.natAbs * unitsPerOne) unitsPerOne :=
    roundedBits_congr Nat.one_pos unitsPerOne_pos (Nat.mul_one _).symm
  have hparts := parts_ofRatio (decide (n < 0)) hfinite
  unfold ofInt
  rw [hparts, hsame, unitsOfBits_roundedBits (hsame ▸ hfinite), roundUnits_representable hrepresentable]

/-- Division by whole units keeps within whole bounds. -/
theorem natAbs_ediv_le {i : ℤ} {c : Nat} (h : i.natAbs ≤ c * unitsPerOne) : (i / unitsPerOne).natAbs ≤ c := by
  have hU := unitsPerOne_pos_int
  have hcast : ((c * unitsPerOne : Nat) : ℤ) = c * unitsPerOne := Nat.cast_mul _ _
  have hupper : i / unitsPerOne ≤ c := by
    have hle := Int.ediv_le_ediv hU (show i ≤ c * unitsPerOne by omega)
    rw [mul_unitsPerOne_ediv] at hle
    exact hle
  have hlower : -(c : ℤ) ≤ i / unitsPerOne := by
    have hge := Int.ediv_le_ediv hU (show -(c : ℤ) * unitsPerOne ≤ i by rw [Int.neg_mul]; omega)
    rw [mul_unitsPerOne_ediv] at hge
    exact hge
  omega

/-- The whole part of a double is a double. -/
theorem parts_ofInt_ediv {y : Float} {negative : Bool} {v : Nat} (hy : parts y = .finite negative v) :
    parts (ofInt (signed negative v / unitsPerOne))
      = .finite (decide (signed negative v / unitsPerOne < 0))
          ((signed negative v / unitsPerOne).natAbs * unitsPerOne) := by
  apply parts_ofInt
  · rcases whole_of_large hy with hsmall | ⟨c, hc⟩
    · have hbound : (signed negative v / unitsPerOne).natAbs ≤ 2 ^ 52 := by
        apply natAbs_ediv_le
        rw [natAbs_signed]
        exact hsmall
      exact representable_mul_unitsPerOne (hbound.trans (by decide))
    · obtain ⟨bits, -, -, hbits⟩ := bits_of_parts hy
      rw [hc, signed_mul, mul_unitsPerOne_ediv, natAbs_signed, ← hc]
      exact ⟨bits, hbits.symm⟩
  · have hlast : roundedBits ((Nat.pow 2 53 - 1) * Nat.pow 2 971) 1 < infinityBits := by decide +kernel
    have hgreatest : greatest = (Nat.pow 2 53 - 1) * Nat.pow 2 971 * unitsPerOne := by decide +kernel
    have hle : (signed negative v / unitsPerOne).natAbs ≤ (Nat.pow 2 53 - 1) * Nat.pow 2 971 := by
      apply natAbs_ediv_le
      rw [natAbs_signed, ← hgreatest]
      exact le_greatest hy
    have hmono {a b : Nat} (h : a ≤ b) : roundedBits a 1 ≤ roundedBits b 1 :=
      roundedBits_mono Nat.one_pos Nat.one_pos (Nat.mul_le_mul_right 1 h)
    exact Nat.lt_of_le_of_lt (hmono hle) hlast

/-- The result is a double that stands for the whole number. -/
theorem parts_roundHalfUp {x : Float} {negative : Bool} {u : Nat} (hx : parts x = .finite negative u) :
    parts (roundHalfUp x)
      = .finite (decide (halfUp (signed negative u) < 0)) ((halfUp (signed negative u)).natAbs * unitsPerOne) := by
  obtain ⟨negative', v, hsum, hunits⟩ := parts_add_half hx
  have hparts := parts_ofInt_ediv hsum
  rw [hunits] at hparts
  rw [roundHalfUp_eq hx]
  exact hparts

/-- What a number overshoots to is one or even. -/
theorem halfUp_of_overshot_eq {i : ℤ} (h : Overshot i) : halfUp i = 1 ∨ halfUp i % 2 = 0 := by
  have hnext := halfUp_of_overshot h
  rcases h with hfraction | ⟨n, hn, hodd, -, -⟩
  · have hnone : (((Nat.pow 2 53 - 1) * Nat.pow 2 1020 : Nat) + half : ℤ) / unitsPerOne = 0 := by decide +kernel
    rw [hfraction, hnone] at hnext
    exact .inl (hfraction ▸ hnext)
  · rw [hn, add_half_ediv] at hnext
    right
    rw [hn]
    omega

/-- Numbers that are not too great are rounded to numbers that are not, if they keep their whole part. -/
theorem abs_halfUp_le {i : ℤ} (hkeeps : Keeps i) (hsmall : |i| ≤ 2 ^ 52 * unitsPerOne) : |halfUp i| ≤ 2 ^ 52 := by
  have hsplit := unitsPerOne_eq_half
  have hpos := half_pos
  have hU := unitsPerOne_pos_int
  obtain ⟨hlow, hhigh⟩ := abs_le.1 hsmall
  rw [hkeeps, abs_le]
  constructor
  · exact Int.le_ediv_of_mul_le hU (by omega)
  · have hless : (i + half) / unitsPerOne < 2 ^ 52 + 1 := Int.ediv_lt_of_lt_mul hU (by omega)
    omega

/-- The double below one half is no whole number. -/
theorem mul_unitsPerOne_ne (n : ℤ) : n * unitsPerOne ≠ ((Nat.pow 2 53 - 1) * Nat.pow 2 1020 : Nat) := by
  intro hfraction
  have hU := unitsPerOne_pos_int
  have hbelow : ((Nat.pow 2 53 - 1) * Nat.pow 2 1020 : Nat) < (unitsPerOne : ℤ) := by decide +kernel
  have habove : (0 : ℤ) < ((Nat.pow 2 53 - 1) * Nat.pow 2 1020 : Nat) := by decide +kernel
  rw [← hfraction] at hbelow habove
  have hsome : 0 < n := (mul_pos_iff_of_pos_right hU).1 habove
  have hone : 1 * (unitsPerOne : ℤ) ≤ n * unitsPerOne := Int.mul_le_mul_of_nonneg_right hsome hU.le
  omega

/-- No rounded number is among those that are rounded further. -/
theorem not_overshot_halfUp {x : Float} {negative : Bool} {u : Nat} (hx : parts x = .finite negative u) :
    ¬ Overshot (halfUp (signed negative u) * unitsPerOne) := by
  rintro (hfraction | ⟨n, hn, hodd, hlow, hhigh⟩)
  · exact mul_unitsPerOne_ne _ hfraction
  obtain rfl : halfUp (signed negative u) = n := mul_right_cancel₀ unitsPerOne_pos_int.ne' hn
  rcases keeps_or_overshot hx with hkeeps | hovershot
  · rcases whole_of_large hx with hsmall | ⟨c, hc⟩
    · refine absurd (abs_halfUp_le hkeeps ?_) (not_le.2 hlow)
      rw [abs_signed]
      exact_mod_cast hsmall
    -- A whole number that keeps its whole part is the result, so it would be one of the odd ones itself.
    · have hsame : halfUp (signed negative u) = signed negative c := by
        rw [hkeeps, hc, signed_mul, add_half_ediv]
      have hovershot : Overshot (signed negative u) :=
        .inr ⟨_, by rw [hsame, hc, signed_mul], hodd, hlow, hhigh⟩
      have hnext := halfUp_of_overshot hovershot
      rw [← hkeeps] at hnext
      omega
  · rcases halfUp_of_overshot_eq hovershot with hone | heven
    · rw [hone] at hlow
      norm_num at hlow
    · omega

/-- Rounding again changes nothing. -/
theorem roundHalfUp_roundHalfUp {x : Float} (hx : IsFinite x) : roundHalfUp (roundHalfUp x) = roundHalfUp x := by
  obtain ⟨negative, u, hparts⟩ := hx
  have hresult := parts_roundHalfUp hparts
  rw [roundHalfUp_eq hresult, roundHalfUp_eq hparts, signed_mul, signed_natAbs]
  congr 1
  have hkeeps := keeps_or_overshot hresult
  rw [signed_mul, signed_natAbs] at hkeeps
  rcases hkeeps with hkeeps | hovershot
  · unfold Keeps at hkeeps
    rw [hkeeps, add_half_ediv]
  · exact absurd hovershot (not_overshot_halfUp hparts)

/-! ## The numbers that are rounded -/

/-- Rounding gives the whole number nearest to the number that a double stands for, and of two that are as near the
greater one. -/
def RoundsHalfUp (nesting : Nat) (x : Float) : Prop :=
  ∃ (y : Float) (n : ℤ), Primitive.round.run nesting [.number x] = .value (.number y) ∧ IsFinite y ∧ value y = n ∧
    (n : ℚ) - 1 / 2 ≤ value x ∧ value x < n + 1 / 2

/-- The greatest double below one half, and the odd whole numbers with 53 binary digits. For these the sum with a half
is no double, and of the two doubles next to it the greater one has the even significand. -/
def Overshoots (x : Float) : Prop :=
  value x = 1 / 2 - 1 / 2 ^ 54 ∨ ∃ n : ℤ, value x = n ∧ n % 2 = 1 ∧ 2 ^ 52 < |n| ∧ |n| < 2 ^ 53

theorem overshoots_iff {x : Float} {negative : Bool} {u : Nat} (hx : parts x = .finite negative u) :
    Overshoots x ↔ Overshot (signed negative u) := by
  have hU := unitsPerOne_pos_rat
  have hfraction : ((1 : ℚ) / 2 - 1 / 2 ^ 54) * unitsPerOne = (((Nat.pow 2 53 - 1) * Nat.pow 2 1020 : Nat) : ℤ) := by
    have hsame : 2 ^ 54 * ((Nat.pow 2 53 - 1) * Nat.pow 2 1020) + unitsPerOne = 2 ^ 53 * unitsPerOne := by
      decide +kernel
    generalize (Nat.pow 2 53 - 1) * Nat.pow 2 1020 = F at hsame ⊢
    generalize unitsPerOne = U at hsame ⊢
    have hcast : (2 ^ 54 * F + U : ℚ) = 2 ^ 53 * U := by exact_mod_cast hsame
    push_cast
    linarith
  unfold Overshoots Overshot
  rw [value_eq hx, div_eq_iff hU.ne', hfraction]
  constructor
  · rintro (h | ⟨n, hn, hrest⟩)
    · exact .inl (by exact_mod_cast h)
    · refine .inr ⟨n, ?_, hrest⟩
      rw [div_eq_iff hU.ne'] at hn
      exact_mod_cast hn
  · rintro (h | ⟨n, hn, hrest⟩)
    · exact .inl (by exact_mod_cast h)
    · refine .inr ⟨n, ?_, hrest⟩
      rw [div_eq_iff hU.ne']
      exact_mod_cast hn

/-- The nearest whole number in units. -/
theorem nearest_iff {x : Float} {negative : Bool} {u : Nat} (hx : parts x = .finite negative u) (n : ℤ) :
    ((n : ℚ) - 1 / 2 ≤ value x ∧ value x < n + 1 / 2) ↔ (signed negative u + half) / unitsPerOne = n := by
  have hU := unitsPerOne_pos_rat
  have hsplit : (unitsPerOne : ℚ) = 2 * half := by exact_mod_cast unitsPerOne_eq_half
  have hlow : (n : ℚ) - 1 / 2 ≤ value x ↔ n * (unitsPerOne : ℤ) ≤ signed negative u + half := by
    rw [value_eq hx, le_div_iff₀ hU, ← Int.cast_le (R := ℚ)]
    push_cast
    constructor <;> intro h <;> linarith
  have hhigh : value x < n + 1 / 2 ↔ signed negative u + half < n * (unitsPerOne : ℤ) + unitsPerOne := by
    rw [value_eq hx, div_lt_iff₀ hU, ← Int.cast_lt (R := ℚ)]
    push_cast
    constructor <;> intro h <;> linarith
  rw [hlow, hhigh, Int.ediv_eq_iff_of_pos unitsPerOne_pos_int]

theorem value_roundHalfUp {x : Float} {negative : Bool} {u : Nat} (hx : parts x = .finite negative u) :
    value (roundHalfUp x) = halfUp (signed negative u) := by
  rw [value_eq (parts_roundHalfUp hx), signed_mul, signed_natAbs]
  push_cast
  exact mul_div_cancel_right₀ _ unitsPerOne_pos_rat.ne'

theorem isFinite_roundHalfUp {x : Float} (hx : IsFinite x) : IsFinite (roundHalfUp x) := by
  obtain ⟨negative, u, hparts⟩ := hx
  exact ⟨_, _, parts_roundHalfUp hparts⟩

theorem isNaN_of_isFinite {x : Float} (hx : IsFinite x) : x.isNaN = false := by
  obtain ⟨negative, u, hparts⟩ := hx
  show x.toModel.unpack.isNaN = false
  rcases unpack_of_parts hparts with ⟨-, hunpack⟩ | ⟨m, e, hpos, hunpack, -, -⟩
  · rw [hunpack]
    rfl
  · rw [hunpack]
    rfl

theorem finite?_eq {x : Float} (hx : IsFinite x) : finite? x = some x := by
  obtain ⟨negative, u, hparts⟩ := hx
  rw [finite?, hparts]

theorem ofInt_eq {i : ℤ} (h : IsFinite (ofInt i)) : Primitive.ofInt i = .ok (ofInt i) := by
  rw [Primitive.ofInt, ofInt?, finite?_eq h, Primitive.orFault]

/-- **The sum with a half can be rounded down, and the result is a double**, so that a finite number is rounded without
a failure of the host. -/
theorem rounded_eq {x : Number} (hx : IsFinite x.toFloat) :
    Primitive.rounded [x] = .ok (.new (roundHalfUp x.toFloat)) := by
  obtain ⟨negative, u, hparts⟩ := hx
  obtain ⟨negative', v, hsum, hunits⟩ := parts_add_half hparts
  have hfloor : Primitive.floor (x.toFloat + 0.5) = .ok (halfUp (signed negative u)) := by
    rw [Primitive.floor, floor?_eq hsum, hunits, halfUp, Primitive.orFault]
  have hfinite := isFinite_roundHalfUp ⟨negative, u, hparts⟩
  rw [roundHalfUp_eq hparts] at hfinite ⊢
  rw [Primitive.rounded, hparts]
  generalize halfUp (signed negative u) = i at hfloor hfinite ⊢
  simp only [hfloor, ofInt_eq hfinite, bind, Except.bind, Except.map]

/-- Infinities and NaN stay the objects that they are. -/
theorem rounded_of_not_finite {x : Number} (hx : ¬ IsFinite x.toFloat) : Primitive.rounded [x] = .ok (.old x) := by
  rw [Primitive.rounded]
  cases hparts : parts x.toFloat with
  | finite negative u => exact absurd ⟨negative, u, hparts⟩ hx
  | nan | infinite => rfl

theorem roundHalfUp_of_not_finite {x : Float} (hx : ¬ IsFinite x) : roundHalfUp x = x := by
  rw [roundHalfUp]
  cases hparts : parts x with
  | finite negative u => exact absurd ⟨negative, u, hparts⟩ hx
  | nan | infinite => rfl

theorem run_round (nesting : Nat) (x : Float) :
    Primitive.round.run nesting [.number x] = .value (.number (roundHalfUp x)) := by
  show Primitive.attempt (Primitive.rounded [x]) Computed.reply = _
  by_cases hx : IsFinite x
  · rw [rounded_eq (x := .plain x) hx, Number.toFloat_plain]
    have hnumber := isNaN_of_isFinite (isFinite_roundHalfUp hx)
    generalize roundHalfUp x = y at hnumber ⊢
    show Computed.reply (.new y) = _
    rw [Computed.reply, hnumber]
    rfl
  · rw [rounded_of_not_finite (x := .plain x) hx, roundHalfUp_of_not_finite hx]
    rfl

theorem eq_roundHalfUp {nesting : Nat} {x y : Float}
    (hrun : Primitive.round.run nesting [.number x] = .value (.number y)) : y = roundHalfUp x := by
  rw [run_round] at hrun
  injection hrun with hnumber
  injection hnumber with hplain
  injection hplain with hsame
  exact hsame.symm

/-- The doubles that are named are not rounded to the nearest whole number. -/
theorem not_roundsHalfUp (nesting : Nat) {x : Float} {negative : Bool} {u : Nat} (hx : parts x = .finite negative u)
    (hovershot : Overshot (signed negative u)) : ¬ RoundsHalfUp nesting x := by
  rintro ⟨y, n, hrun, -, hvalue, hnear⟩
  rw [eq_roundHalfUp hrun, value_roundHalfUp hx, halfUp_of_overshot hovershot, (nearest_iff hx n).1 hnear] at hvalue
  have hsame : n + 1 = n := by exact_mod_cast hvalue
  omega

/-- **Rounding gives the nearest whole number, halves upwards, for all doubles but those that are named.** Whatever it
gives, rounding it again changes nothing. -/
theorem round_halfUp_iff (nesting : Nat) {x : Float} (hx : IsFinite x) :
    (RoundsHalfUp nesting x ↔ ¬ Overshoots x) ∧
      ∀ y : Float, Primitive.round.run nesting [.number x] = .value (.number y) →
        Primitive.round.run nesting [.number y] = .value (.number y) := by
  obtain ⟨negative, u, hparts⟩ := hx
  refine ⟨⟨?_, ?_⟩, ?_⟩
  · intro hrounds hovershoots
    exact not_roundsHalfUp nesting hparts ((overshoots_iff hparts).1 hovershoots) hrounds
  · intro hnone
    rw [overshoots_iff hparts] at hnone
    have hkeeps := (keeps_or_overshot hparts).resolve_right hnone
    refine ⟨roundHalfUp x, halfUp (signed negative u), run_round nesting x, isFinite_roundHalfUp ⟨_, _, hparts⟩,
      value_roundHalfUp hparts, ?_⟩
    exact (nearest_iff hparts _).2 hkeeps.symm
  · intro y hrun
    rw [eq_roundHalfUp hrun, run_round, roundHalfUp_roundHalfUp ⟨_, _, hparts⟩]

theorem round_halfUp_five_halves :
    IsFinite 2.5 ∧ (RoundsHalfUp 0 2.5 ↔ ¬ Overshoots 2.5) ∧
      ∀ y : Float, Primitive.round.run 0 [.number (2.5 : Float)] = .value (.number y) →
        Primitive.round.run 0 [.number y] = .value (.number y) :=
  have hfinite : IsFinite 2.5 := by decide +kernel
  ⟨hfinite, round_halfUp_iff 0 hfinite⟩

/-- Just below one half, and an odd whole number with 53 binary digits. -/
theorem round_halfUp_overshoots : ¬ RoundsHalfUp 0 0.49999999999999994 ∧ ¬ RoundsHalfUp 0 4503599627370497 := by
  have hbelow : parts 0.49999999999999994 = .finite false ((Nat.pow 2 53 - 1) * Nat.pow 2 1020) := by decide +kernel
  have hodd : parts 4503599627370497 = .finite false (4503599627370497 * unitsPerOne) := by decide +kernel
  refine ⟨not_roundsHalfUp 0 hbelow ?_, not_roundsHalfUp 0 hodd ?_⟩
  · rw [signed_false]
    exact .inl (Eq.refl _)
  · rw [signed_false, Nat.cast_mul]
    exact .inr ⟨4503599627370497, by rw [Nat.cast_ofNat], by decide, by decide, by decide⟩

end MiniScheme.Binary64
