import MiniScheme.Binary64.Shortest
import MiniScheme.Proofs.Binary64.Rounding

/-!
# The shortest decimal reads back

* `shortest_bits`: the decimal that is found has the bits of the double it was found for.
* `Decimal.exponent_lt`, `Decimal.le_exponent`: decimals between two powers of ten have an exponent between theirs.
-/

namespace MiniScheme.Binary64

namespace Decimal

/-- The bits of a decimal are those of its exact quotient, on whichever side of the point it ends. -/
theorem bits_eq (d : Decimal) : d.bits = roundedBits (d.digits * Nat.pow 10 d.dropped) (Nat.pow 10 places) := by
  unfold bits
  rw [Nat.pow_eq, Nat.pow_eq, Nat.pow_eq, Nat.pow_eq]
  split
  · rename_i hfractional
    apply roundedBits_congr (Nat.pow_pos (by decide)) (Nat.pow_pos (by decide))
    rw [Nat.mul_assoc, ← Nat.pow_add, Nat.add_sub_cancel' hfractional]
  · rename_i hwhole
    apply roundedBits_congr Nat.one_pos (Nat.pow_pos (by decide))
    rw [Nat.mul_assoc, ← Nat.pow_add, Nat.sub_add_cancel (by omega), Nat.mul_one]

/-- A cut that is kept reads as the double it was made for. -/
theorem cut?_bits {target exact dropped : Nat} {d : Decimal} (hcut : cut? target exact dropped = some d) :
    d.bits = target := by
  unfold cut? at hcut
  simp only at hcut
  split at hcut
  · cases hcut
  · rename_i hbelow _
    cases hcut
    exact of_decide_eq_true hbelow
  · rename_i _ habove
    cases hcut
    exact of_decide_eq_true habove
  · rename_i hbelow habove
    split at hcut
    · cases hcut
      exact of_decide_eq_true hbelow
    · cases hcut
      exact of_decide_eq_true habove

/-- The search keeps what it starts from where no cut reads back. -/
theorem shortestFrom_bits {target exact : Nat} (hstart : (⟨exact, 0⟩ : Decimal).bits = target) (dropped : Nat) :
    (shortestFrom target exact dropped).bits = target := by
  induction dropped with
  | zero => exact hstart
  | succ dropped ih =>
    unfold shortestFrom
    split
    · rename_i d hcut
      exact cut?_bits hcut
    · exact ih

end Decimal

/-- The places of the exact decimal are those that take the factors of two out of one. -/
theorem unitsPerOne_eq : unitsPerOne = Nat.pow 2 places := by
  unfold unitsPerOne
  apply congrArg
  rfl

/-- **The shortest decimal reads back.** It has the bits of the double with these units. -/
theorem shortest_bits (units : Nat) : (shortest units).bits = roundedBits units unitsPerOne := by
  apply Decimal.shortestFrom_bits
  rw [Decimal.bits_eq]
  apply roundedBits_congr (Nat.pow_pos (by decide)) unitsPerOne_pos
  have hproduct (k : Nat) : 10 ^ k = 5 ^ k * 2 ^ k := Nat.mul_pow 5 2 k
  rw [hproduct places, unitsPerOne_eq]
  simp only [Nat.pow_eq, Nat.pow_zero, Nat.mul_one, Nat.mul_assoc]

namespace Decimal

/-! ## Exponents -/

/-- The first digit of a number that is not zero stands at its leading power of ten. -/
theorem length_spec {n : Nat} (hnonzero : n ≠ 0) : 0 < length n ∧ 10 ^ (length n - 1) ≤ n ∧ n < 10 ^ length n := by
  unfold length
  rw [if_neg hnonzero]
  have hpositive : 0 < (Nat.toDigits 10 n).length := Nat.length_toDigits_pos
  have hupper : n < 10 ^ (Nat.toDigits 10 n).length := (Nat.length_toDigits_le_iff (by decide) hpositive).1 Nat.le.refl
  refine ⟨hpositive, ?_, hupper⟩
  by_contra hless
  by_cases hsingle : (Nat.toDigits 10 n).length - 1 = 0
  · rw [hsingle, Nat.pow_zero] at hless
    omega
  · have hshorter := (Nat.length_toDigits_le_iff (b := 10) (by decide) (Nat.pos_of_ne_zero hsingle)).2
      (Nat.lt_of_not_le hless)
    omega

/-- A decimal with fewer bits than a power of ten starts after it. -/
theorem exponent_lt (p q : Nat) {d : Decimal} (hnonzero : d.digits ≠ 0)
    (hbelow : d.bits < roundedBits (Nat.pow 10 p) (Nat.pow 10 q)) : d.exponent < (p : Int) - q := by
  obtain ⟨hpositive, hlower, -⟩ := length_spec hnonzero
  by_contra hbeyond
  have hexponent : p + places ≤ length d.digits - 1 + d.dropped + q := by
    unfold exponent at hbeyond
    omega
  have hreaches : roundedBits (Nat.pow 10 p) (Nat.pow 10 q) ≤ d.bits := by
    rw [bits_eq]
    generalize places = l at hexponent ⊢
    apply roundedBits_mono (Nat.pow_pos (by decide)) (Nat.pow_pos (by decide))
    calc 10 ^ p * 10 ^ l = 10 ^ (p + l) := (Nat.pow_add ..).symm
      _ ≤ 10 ^ (length d.digits - 1 + d.dropped + q) := Nat.pow_le_pow_right (by decide) hexponent
      _ = 10 ^ (length d.digits - 1) * 10 ^ d.dropped * 10 ^ q := by rw [Nat.pow_add, Nat.pow_add]
      _ ≤ d.digits * 10 ^ d.dropped * 10 ^ q := Nat.mul_le_mul_right _ (Nat.mul_le_mul_right _ hlower)
  omega

/-- A decimal with more bits than a power of ten starts at that power or before it. -/
theorem le_exponent (p q : Nat) {d : Decimal} (hnonzero : d.digits ≠ 0)
    (habove : roundedBits (Nat.pow 10 p) (Nat.pow 10 q) < d.bits) : (p : Int) - q ≤ d.exponent := by
  obtain ⟨hpositive, -, hupper⟩ := length_spec hnonzero
  by_contra hbefore
  have hexponent : length d.digits + d.dropped + q ≤ p + places := by
    unfold exponent at hbefore
    omega
  have hstays : d.bits ≤ roundedBits (Nat.pow 10 p) (Nat.pow 10 q) := by
    rw [bits_eq]
    generalize places = l at hexponent ⊢
    apply roundedBits_mono (Nat.pow_pos (by decide)) (Nat.pow_pos (by decide))
    calc d.digits * 10 ^ d.dropped * 10 ^ q
        ≤ 10 ^ length d.digits * 10 ^ d.dropped * 10 ^ q :=
          Nat.mul_le_mul_right _ (Nat.mul_le_mul_right _ hupper.le)
      _ = 10 ^ (length d.digits + d.dropped + q) := by rw [Nat.pow_add, Nat.pow_add]
      _ ≤ 10 ^ (p + l) := Nat.pow_le_pow_right (by decide) hexponent
      _ = 10 ^ p * 10 ^ l := Nat.pow_add ..
  omega

end Decimal

end MiniScheme.Binary64
