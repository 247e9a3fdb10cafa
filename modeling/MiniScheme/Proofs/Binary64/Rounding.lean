import MiniScheme.Binary64.Basic
import Mathlib.Data.Nat.Log
import Mathlib.Tactic.Linarith
import Mathlib.Tactic.Ring

/-!
# Rounding to the nearest double

* `roundHalfEven_mono`: a larger quotient rounds to a whole number that is no smaller.
* `roundedBits_mono`: a larger quotient rounds to bits that are no smaller, so equal quotients round alike however
  they are written.
-/

namespace MiniScheme.Binary64

/-! ## Whole numbers -/

/-- The rounded number is at most half a denominator off, and even where it is exactly that far off. -/
theorem roundHalfEven_spec {d : Nat} (hd : 0 < d) (n : Nat) :
    2 * (roundHalfEven n d * d) ≤ 2 * n + d ∧ 2 * n ≤ 2 * (roundHalfEven n d * d) + d ∧
      (2 * (roundHalfEven n d * d) = 2 * n + d → roundHalfEven n d % 2 = 0) ∧
      (2 * n = 2 * (roundHalfEven n d * d) + d → roundHalfEven n d % 2 = 0) := by
  have hn : n / d * d + n % d = n := Nat.div_add_mod' n d
  have hsmall : n % d < d := Nat.mod_lt n hd
  have hnext : (n / d + 1) * d = n / d * d + d := Nat.succ_mul _ _
  unfold roundHalfEven
  split
  · rename_i hdown
    refine ⟨by omega, by omega, by omega, ?_⟩
    intro htie
    obtain hless | ⟨_, heven⟩ := hdown
    · omega
    · exact heven
  · rename_i hup
    refine ⟨by omega, by omega, ?_, by omega⟩
    intro htie
    have hodd : ¬ n / d % 2 = 0 := fun heven => hup (.inr ⟨by omega, heven⟩)
    omega

/-- A larger quotient rounds to a whole number that is no smaller. -/
theorem roundHalfEven_mono {n d n' d' : Nat} (hd : 0 < d) (hd' : 0 < d') (hle : n * d' ≤ n' * d) :
    roundHalfEven n d ≤ roundHalfEven n' d' := by
  obtain ⟨hlow, -, htie, -⟩ := roundHalfEven_spec hd n
  obtain ⟨-, hhigh, -, htie'⟩ := roundHalfEven_spec hd' n'
  generalize roundHalfEven n d = a at hlow htie ⊢
  generalize roundHalfEven n' d' = b at hhigh htie' ⊢
  by_contra hless
  have hnext : b + 1 ≤ a := by omega
  -- Both distances would be one half, at two consecutive whole numbers that are both even.
  have hscaled : d * d' > 0 := Nat.mul_pos hd hd'
  have hlower : 2 * (a * d) * d' ≤ (2 * n + d) * d' := Nat.mul_le_mul_right d' hlow
  have hupper : 2 * n' * d ≤ (2 * (b * d') + d') * d := Nat.mul_le_mul_right d hhigh
  have hchain : a * (2 * (d * d')) ≤ (b + 1) * (2 * (d * d')) := by nlinarith
  have heq : a = b + 1 := Nat.le_antisymm (Nat.le_of_mul_le_mul_right hchain (by omega)) hnext
  subst heq
  have hhalf : 2 * ((b + 1) * d) = 2 * n + d := by nlinarith
  have hhalf' : 2 * n' = 2 * (b * d') + d' := by nlinarith
  have heven := htie hhalf
  have heven' := htie' hhalf'
  omega

/-- Equal quotients round to the same whole number. -/
theorem roundHalfEven_congr {n d n' d' : Nat} (hd : 0 < d) (hd' : 0 < d') (heq : n * d' = n' * d) :
    roundHalfEven n d = roundHalfEven n' d' :=
  Nat.le_antisymm (roundHalfEven_mono hd hd' heq.le) (roundHalfEven_mono hd' hd heq.ge)

/-- A quotient that is whole rounds to itself. -/
theorem roundHalfEven_mul (m : Nat) {d : Nat} (hd : 0 < d) : roundHalfEven (m * d) d = m := by
  unfold roundHalfEven
  rw [Nat.mul_mod_left, Nat.mul_div_cancel m hd, if_pos (.inl (by omega))]

/-! ## Doubles -/

theorem unitsPerOne_pos : 0 < unitsPerOne := by
  unfold unitsPerOne
  apply Nat.pow_pos
  decide

/-- How many binary digits of the quotient `n / d` are beyond the 53 leading ones. -/
def beyond (n d : Nat) : Nat := Nat.log2 (n / d) - 52

/-- The bits of the quotient `n / d` of units before infinity cuts them off. -/
def rounded (n d : Nat) : Nat :=
  beyond n d * Nat.pow 2 52 + roundHalfEven n (d * Nat.pow 2 (beyond n d))

theorem roundedBits_eq (n d : Nat) : roundedBits n d = min (rounded (n * unitsPerOne) d) infinityBits := rfl

/-- A significand keeps at most 53 binary digits, or is the next power of two. -/
theorem rounded_le (n : Nat) {d : Nat} (hd : 0 < d) : rounded n d ≤ (beyond n d + 2) * Nat.pow 2 52 := by
  have hsmall : n / d < 2 ^ (Nat.log2 (n / d) + 1) := Nat.lt_log2_self
  have hwide : 2 ^ (Nat.log2 (n / d) + 1) ≤ 2 ^ 53 * 2 ^ beyond n d := by
    rw [← pow_add]
    exact Nat.pow_le_pow_right (by decide) (by unfold beyond; omega)
  have hscaled : n < 2 ^ 53 * 2 ^ beyond n d * d :=
    (Nat.div_lt_iff_lt_mul hd).1 (Nat.lt_of_lt_of_le hsmall hwide)
  have hstep : 0 < d * 2 ^ beyond n d := Nat.mul_pos hd (Nat.two_pow_pos _)
  have hbound : roundHalfEven n (d * 2 ^ beyond n d) ≤ 2 ^ 53 := by
    rw [← roundHalfEven_mul (2 ^ 53) (d := 1) (by decide)]
    apply roundHalfEven_mono hstep (by decide)
    nlinarith
  unfold rounded
  rw [Nat.pow_eq, Nat.pow_eq]
  omega

/-- A quotient of at least `2 ^ 52` steps rounds to as many steps or more. -/
theorem le_roundHalfEven_beyond {n d : Nat} (hd : 0 < d) (hnormal : 0 < beyond n d) :
    2 ^ 52 * 2 ^ beyond n d * d ≤ n ∧ 2 ^ 52 ≤ roundHalfEven n (d * 2 ^ beyond n d) := by
  have hexponent : Nat.log2 (n / d) = 52 + beyond n d := by
    unfold beyond at hnormal ⊢
    omega
  have hnonzero : n / d ≠ 0 := by
    intro hzero
    rw [hzero, Nat.log2_zero] at hexponent
    omega
  have hlarge : 2 ^ (52 + beyond n d) ≤ n / d := (Nat.le_log2 hnonzero).1 hexponent.ge
  have hscaled : 2 ^ 52 * 2 ^ beyond n d * d ≤ n := by
    rw [← pow_add]
    exact (Nat.le_div_iff_mul_le hd).1 hlarge
  have hstep : 0 < d * 2 ^ beyond n d := Nat.mul_pos hd (Nat.two_pow_pos _)
  refine ⟨hscaled, ?_⟩
  rw [← roundHalfEven_mul (2 ^ 52) (d := 1) (by decide)]
  apply roundHalfEven_mono (by decide) hstep
  nlinarith

/-- A significand has 53 binary digits where the quotient has that many. -/
theorem le_rounded {n d : Nat} (hd : 0 < d) (hnormal : 0 < beyond n d) :
    (beyond n d + 1) * Nat.pow 2 52 ≤ rounded n d := by
  have hbound := (le_roundHalfEven_beyond hd hnormal).2
  unfold rounded
  rw [Nat.pow_eq, Nat.pow_eq]
  omega

/-- A larger quotient of units has bits that are no smaller. -/
theorem rounded_mono {n d n' d' : Nat} (hd : 0 < d) (hd' : 0 < d') (hle : n * d' ≤ n' * d) :
    rounded n d ≤ rounded n' d' := by
  have hquotients : n / d ≤ n' / d' := by
    rw [Nat.le_div_iff_mul_le hd']
    apply Nat.le_of_mul_le_mul_right _ hd
    calc n / d * d' * d = n / d * d * d' := by ring
      _ ≤ n * d' := Nat.mul_le_mul_right _ (Nat.div_mul_le_self _ _)
      _ ≤ n' * d := hle
  have hdropped : beyond n d ≤ beyond n' d' := by
    have hlogs : Nat.log2 (n / d) ≤ Nat.log2 (n' / d') := by
      rw [Nat.log2_eq_log_two, Nat.log2_eq_log_two]
      exact Nat.log_mono_right hquotients
    unfold beyond
    omega
  by_cases hsame : beyond n d = beyond n' d'
  · unfold rounded
    rw [hsame]
    apply Nat.add_le_add_left
    apply roundHalfEven_mono (Nat.mul_pos hd (Nat.pow_pos (by decide)))
      (Nat.mul_pos hd' (Nat.pow_pos (by decide)))
    calc n * (d' * Nat.pow 2 (beyond n' d')) = n * d' * Nat.pow 2 (beyond n' d') := by ring
      _ ≤ n' * d * Nat.pow 2 (beyond n' d') := Nat.mul_le_mul_right _ hle
      _ = n' * (d * Nat.pow 2 (beyond n' d')) := by ring
  -- With another digit dropped, the significand starts again where it had ended.
  · calc rounded n d ≤ (beyond n d + 2) * Nat.pow 2 52 := rounded_le n hd
      _ ≤ (beyond n' d' + 1) * Nat.pow 2 52 := Nat.mul_le_mul_right _ (by omega)
      _ ≤ rounded n' d' := le_rounded hd' (by omega)

/-- **Rounding is monotone.** A larger quotient rounds to bits that are no smaller. -/
theorem roundedBits_mono {n d n' d' : Nat} (hd : 0 < d) (hd' : 0 < d') (hle : n * d' ≤ n' * d) :
    roundedBits n d ≤ roundedBits n' d' := by
  have hscaled : n * unitsPerOne * d' ≤ n' * unitsPerOne * d := by
    rw [Nat.mul_right_comm n, Nat.mul_right_comm n']
    exact Nat.mul_le_mul_right _ hle
  have := rounded_mono hd hd' hscaled
  rw [roundedBits_eq, roundedBits_eq]
  omega

/-- Equal quotients round alike. -/
theorem roundedBits_congr {n d n' d' : Nat} (hd : 0 < d) (hd' : 0 < d') (heq : n * d' = n' * d) :
    roundedBits n d = roundedBits n' d' :=
  Nat.le_antisymm (roundedBits_mono hd hd' heq.le) (roundedBits_mono hd' hd heq.ge)

/-- Nothing rounds to nothing. -/
theorem roundedBits_zero {d : Nat} (hd : 0 < d) : roundedBits 0 d = 0 := by
  have hnone : beyond 0 d = 0 := by
    unfold beyond
    rw [Nat.zero_div, Nat.log2_zero]
  have hnothing : roundHalfEven (0 * (d * Nat.pow 2 0)) (d * Nat.pow 2 0) = 0 :=
    roundHalfEven_mul 0 (Nat.mul_pos hd (Nat.pow_pos (by decide)))
  rw [Nat.zero_mul] at hnothing
  rw [roundedBits_eq, Nat.zero_mul]
  unfold rounded
  rw [hnone, hnothing, Nat.zero_mul, Nat.zero_min]

/-- The units of a finite double have its bits. -/
theorem rounded_unitsOfFields (field : Nat) {fraction d : Nat} (hnarrow : fraction < Nat.pow 2 52)
    (hd : 0 < d) : rounded (unitsOfFields field fraction * d) d = field * Nat.pow 2 52 + fraction := by
  unfold rounded beyond
  rw [Nat.mul_div_cancel _ hd]
  unfold unitsOfFields
  rw [Nat.pow_eq] at hnarrow ⊢
  split
  · rename_i hsubnormal
    have hlog : Nat.log2 fraction - 52 = 0 := by
      by_cases hzero : fraction = 0
      · rw [hzero, Nat.log2_zero]
      · have := (Nat.log2_lt hzero).2 hnarrow
        omega
    rw [hlog, Nat.pow_eq, pow_zero, Nat.mul_one, roundHalfEven_mul _ hd, hsubnormal]
  · rename_i hnormal
    rw [Nat.pow_eq]
    have hlog : Nat.log2 ((2 ^ 52 + fraction) * 2 ^ (field - 1)) = 52 + (field - 1) := by
      have hhidden : 0 < 2 ^ (field - 1) := Nat.two_pow_pos _
      refine (Nat.log2_eq_iff (Nat.mul_pos (by omega) hhidden).ne').2 ⟨?_, ?_⟩
      · rw [pow_add]
        exact Nat.mul_le_mul_right _ (by omega)
      · rw [show 52 + (field - 1) + 1 = 53 + (field - 1) by omega, pow_add]
        exact Nat.mul_lt_mul_of_pos_right (by omega) hhidden
    have hstep : 0 < d * 2 ^ (field - 1) := Nat.mul_pos hd (Nat.two_pow_pos _)
    rw [hlog, Nat.add_sub_cancel_left, Nat.pow_eq, Nat.mul_assoc, Nat.mul_comm _ d, roundHalfEven_mul _ hstep]
    omega

end MiniScheme.Binary64
