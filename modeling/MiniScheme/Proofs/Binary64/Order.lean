import MiniScheme.Proofs.Binary64.Words
import Mathlib.Algebra.Ring.Nat
import Mathlib.Tactic.Ring

/-!
# Positive doubles are ordered by their bits

* `Positive`: a finite double above zero, with the significand and exponent that it unpacks to.
* `positive_between`: what lies between two positive doubles is positive, and its bits lie between theirs.
* `Positive.parts_eq`, `Positive.ofBits_eq`: its units and the double itself come from those bits.
-/

namespace MiniScheme.Binary64

open Float.Model (UnpackedFloat Format)
open Float.Model.UnpackedFloat (Sign unpack pack unpackMantissa unpackExponent unpackSign packComponents)

/-! ## Positive doubles -/

/-- The units that the bits of a positive double stand for. -/
def unitsOf (x : Float) : Nat := unitsOfFields (bitsOf x / Nat.pow 2 52) (bitsOf x % Nat.pow 2 52)

/-- A finite double above zero. -/
def Positive (x : Float) : Prop :=
  ∃ mantissa exponent nonzero, x.toModel.unpack = .finite .positive mantissa exponent nonzero

/-- What unpacking a positive double says about its bits. -/
theorem unpack_positive {x : Float} {mantissa : Nat} {exponent : Int} {hnonzero : 0 < mantissa}
    (hunpacked : x.toModel.unpack = .finite .positive mantissa exponent hnonzero) :
    Canonical mantissa exponent ∧ (bitsOf x : Int) = (exponent + 1074) * 2 ^ 52 + mantissa := by
  have hword := hasWord_bitsOf x
  rw [hunpacked] at hword
  rcases hword with ⟨-, -, hnan⟩ | hword
  · cases hnan
  · cases hword with
    | finite hcanonical hword =>
      rw [signBit_positive] at hword
      exact ⟨hcanonical, by omega⟩

/-- A word below that of infinity, and not zero, is that of a positive double. -/
theorem positive_of_bits {x : Float} (hnonzero : 0 < bitsOf x) (hbelow : bitsOf x < infinityBits) : Positive x := by
  have hword := hasWord_bitsOf x
  unfold infinityBits at hbelow
  rw [Nat.pow_eq] at hbelow
  unfold Positive
  rcases hword with ⟨hfull, -, -⟩ | hword
  · omega
  generalize x.toModel.unpack = u at hword ⊢
  cases hword with
  | @zero sign _ hword => cases sign <;> simp only [signBit_positive, signBit_negative] at hword <;> omega
  | @infinity sign _ hword => omega
  | @finite sign mantissa _ exponent hpos hcanonical hword =>
    cases sign with
    | positive => exact ⟨mantissa, exponent, hpos, rfl⟩
    | negative =>
      have hleast := hcanonical.least
      rw [signBit_negative] at hword
      omega

namespace Positive

variable {x y : Float}

/-- The bits of a positive double are below those of infinity. -/
theorem bits_lt (hx : Positive x) : bitsOf x < infinityBits := by
  obtain ⟨mantissa, exponent, hnonzero, hunpacked⟩ := hx
  obtain ⟨⟨hnarrow, hleast, hgreatest, hnormal⟩, hbits⟩ := unpack_positive hunpacked
  unfold infinityBits
  rw [Nat.pow_eq]
  omega

theorem bits_pos (hx : Positive x) : 0 < bitsOf x := by
  obtain ⟨mantissa, exponent, hnonzero, hunpacked⟩ := hx
  obtain ⟨⟨hnarrow, hleast, hgreatest, hnormal⟩, hbits⟩ := unpack_positive hunpacked
  omega

/-- The parts of a positive double are its units, read off its bits. -/
theorem parts_eq (hx : Positive x) : parts x = .finite false (unitsOf x) := by
  have hbelow := hx.bits_lt
  unfold infinityBits at hbelow
  have hfield : bitsOf x / Nat.pow 2 52 % Nat.pow 2 11 = bitsOf x / Nat.pow 2 52 := by
    rw [Nat.pow_eq, Nat.pow_eq] at *
    omega
  have hsign : ¬ Nat.pow 2 63 ≤ bitsOf x := by
    rw [Nat.pow_eq] at *
    omega
  have hfinite : ¬ bitsOf x / Nat.pow 2 52 = 2047 := by
    rw [Nat.pow_eq] at *
    omega
  show (if bitsOf x / Nat.pow 2 52 % Nat.pow 2 11 = 2047 then _ else
    Parts.finite (decide (Nat.pow 2 63 ≤ bitsOf x))
      (unitsOfFields (bitsOf x / Nat.pow 2 52 % Nat.pow 2 11) (bitsOf x % Nat.pow 2 52))) = _
  rw [hfield, if_neg hfinite, decide_eq_false hsign, unitsOf]

/-- A positive double is the double of its bits. -/
theorem ofBits_eq (hx : Positive x) : Float.ofBits (UInt64.ofNat (bitsOf x)) = x := by
  apply bitsOf_inj
  have hbelow := hx.bits_lt
  unfold infinityBits at hbelow
  rw [Nat.pow_eq] at hbelow
  exact bitsOf_ofBits (bitsOf_lt x) (by omega)

/-- Positive doubles are ordered as their bits are. -/
theorem le_iff (hx : Positive x) (hy : Positive y) : x ≤ y ↔ bitsOf x ≤ bitsOf y := by
  obtain ⟨mantissa, exponent, hnonzero, hunpacked⟩ := hx
  obtain ⟨mantissa', exponent', hnonzero', hunpacked'⟩ := hy
  obtain ⟨⟨hnarrow, hleast, hgreatest, hnormal⟩, hbits⟩ := unpack_positive hunpacked
  obtain ⟨⟨hnarrow', hleast', hgreatest', hnormal'⟩, hbits'⟩ := unpack_positive hunpacked'
  have hcompared : x ≤ y ↔ ((compare exponent exponent').then (compare mantissa mantissa')).isLE = true := by
    show decide (x.toModel.unpack.le y.toModel.unpack = true) = true ↔ _
    rw [hunpacked, hunpacked', decide_eq_true_iff]
    rfl
  rw [hcompared, Ordering.isLE_then_iff_or, Int.compare_eq_lt, Int.compare_eq_eq, Nat.isLE_compare]
  omega

/-- Positive doubles are ordered strictly as their bits are. -/
theorem lt_iff (hx : Positive x) (hy : Positive y) : x < y ↔ bitsOf x < bitsOf y := by
  obtain ⟨mantissa, exponent, hnonzero, hunpacked⟩ := hx
  obtain ⟨mantissa', exponent', hnonzero', hunpacked'⟩ := hy
  obtain ⟨⟨hnarrow, hleast, hgreatest, hnormal⟩, hbits⟩ := unpack_positive hunpacked
  obtain ⟨⟨hnarrow', hleast', hgreatest', hnormal'⟩, hbits'⟩ := unpack_positive hunpacked'
  have hcompared : x < y ↔ (compare exponent exponent').then (compare mantissa mantissa') = .lt := by
    show decide (x.toModel.unpack.lt y.toModel.unpack = true) = true ↔ _
    rw [hunpacked, hunpacked', decide_eq_true_iff]
    show (some _ == some Ordering.lt) = true ↔ _
    rw [beq_iff_eq, Option.some.injEq]
  rw [hcompared, Ordering.then_eq_lt, Int.compare_eq_lt, Int.compare_eq_eq, Nat.compare_eq_lt]
  omega

end Positive

/-- What lies between two positive doubles is positive. -/
theorem positive_between {low x high : Float} (hlow : Positive low) (hhigh : Positive high) (hge : low ≤ x)
    (hlt : x < high) : Positive x := by
  obtain ⟨mantissa, exponent, hnonzero, hunpacked⟩ := hlow
  obtain ⟨mantissa', exponent', hnonzero', hunpacked'⟩ := hhigh
  have habove : low.toModel.unpack.le x.toModel.unpack = true := of_decide_eq_true hge
  have hbelow : x.toModel.unpack.lt high.toModel.unpack = true := of_decide_eq_true hlt
  unfold Positive
  rw [hunpacked] at habove
  rw [hunpacked'] at hbelow
  cases hunpackedX : x.toModel.unpack with
  | notANumber =>
    rw [hunpackedX] at habove
    contradiction
  | zero sign =>
    rw [hunpackedX] at habove
    contradiction
  | infinity sign =>
    rw [hunpackedX] at habove hbelow
    cases sign <;> contradiction
  | finite sign m e hnonzeroX =>
    cases sign with
    | negative =>
      rw [hunpackedX] at habove
      contradiction
    | positive => exact ⟨m, e, hnonzeroX, rfl⟩

end MiniScheme.Binary64
