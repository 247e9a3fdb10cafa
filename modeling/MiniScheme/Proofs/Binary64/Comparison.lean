import MiniScheme.Proofs.Binary64.Words

/-!
# Doubles are ordered by their words

A word read as a sign and a magnitude is a number, and doubles are in the order of these numbers. Both zeros have
magnitude zero, and infinity comes after all that is finite. So but for NaN, which is comparable with nothing, the order
is total.

* `key` — the word of a double as a signed number.
* `le_iff_key`, `beq_iff_key` — comparing two doubles is comparing these numbers.
-/

namespace MiniScheme.Binary64

open Float.Model (UnpackedFloat)
open Float.Model.UnpackedFloat (Sign)

/-- The word of a double as a number with the sign of the double. -/
def key (x : Float) : Int := if bitsOf x < 2 ^ 63 then bitsOf x else 2 ^ 63 - bitsOf x

/-- A magnitude with a sign. -/
def withSign : Sign → Int → Int
  | .positive, k => k
  | .negative, k => -k

/-- The word of what is unpacked, as a signed number. -/
def unpackedKey : UnpackedFloat → Int
  | .notANumber | .zero _ => 0
  | .finite sign mantissa exponent _ => withSign sign ((exponent + 1074) * 2 ^ 52 + mantissa)
  | .infinity sign => withSign sign (2047 * 2 ^ 52)

/-! ## What is unpacked -/

theorem HasWord.key_eq {u : UnpackedFloat} {word : Nat} (h : HasWord u word) :
    (if word < 2 ^ 63 then (word : Int) else 2 ^ 63 - word) = unpackedKey u := by
  cases h with
  | @zero sign _ hword =>
    cases sign <;> dsimp only [unpackedKey, signBit_positive, signBit_negative] at hword ⊢ <;> omega
  | @infinity sign _ hword =>
    cases sign <;> dsimp only [unpackedKey, withSign, signBit_positive, signBit_negative] at hword ⊢ <;> omega
  | @finite sign mantissa _ exponent _ hcanonical hword =>
    obtain ⟨hnarrow, hleast, hgreatest, -⟩ := hcanonical
    cases sign <;> dsimp only [unpackedKey, withSign, signBit_positive, signBit_negative] at hword ⊢ <;> omega

/-- A significand counts after the exponent, since it is below twice the hidden bit. -/
theorem Canonical.compare_eq {mantissa mantissa' : Nat} {exponent exponent' : Int} (h : Canonical mantissa exponent)
    (h' : Canonical mantissa' exponent') :
    (compare exponent exponent').then (compare mantissa mantissa') =
      compare ((exponent + 1074) * 2 ^ 52 + mantissa) ((exponent' + 1074) * 2 ^ 52 + mantissa') := by
  obtain ⟨hnarrow, hleast, hgreatest, hnormal⟩ := h
  obtain ⟨hnarrow', hleast', hgreatest', hnormal'⟩ := h'
  rcases Int.lt_trichotomy exponent exponent' with hlt | rfl | hgt
  · rw [Int.compare_eq_lt.2 hlt, Ordering.lt_then, eq_comm, Int.compare_eq_lt]
    omega
  · rw [Int.compare_eq_eq.2 rfl, Ordering.eq_then]
    rcases Nat.lt_trichotomy mantissa mantissa' with hlt | rfl | hgt
    · rw [Nat.compare_eq_lt.2 hlt, eq_comm, Int.compare_eq_lt]
      omega
    · rw [Nat.compare_eq_eq.2 rfl, eq_comm, Int.compare_eq_eq]
    · rw [Nat.compare_eq_gt.2 hgt, eq_comm, Int.compare_eq_gt]
      omega
  · rw [Int.compare_eq_gt.2 hgt, Ordering.gt_then, eq_comm, Int.compare_eq_gt]
    omega

theorem compare_neg (k l : Int) : compare (-k) (-l) = (compare k l).swap := by
  rw [Int.compare_swap]
  rcases Int.lt_trichotomy k l with hlt | rfl | hgt
  · rw [Int.compare_eq_gt.2 (Int.neg_lt_neg hlt), Int.compare_eq_gt.2 hlt]
  · rw [Int.compare_eq_eq.2 rfl, Int.compare_eq_eq.2 rfl]
  · rw [Int.compare_eq_lt.2 (Int.neg_lt_neg hgt), Int.compare_eq_lt.2 hgt]

/-- The magnitudes of finite doubles lie between zero and infinity. -/
theorem Canonical.magnitude_lt {mantissa : Nat} {exponent : Int} (h : Canonical mantissa exponent)
    (hpos : 0 < mantissa) :
    0 < (exponent + 1074) * 2 ^ 52 + mantissa ∧ (exponent + 1074) * 2 ^ 52 + mantissa < 2047 * 2 ^ 52 := by
  obtain ⟨hnarrow, hleast, hgreatest, -⟩ := h
  omega

/-- **What is unpacked of two words is compared as signed numbers.** -/
theorem HasWord.compare_eq {u v : UnpackedFloat} {a b : Nat} (hu : HasWord u a) (hv : HasWord v b) :
    u.compare v = some (compare (unpackedKey u) (unpackedKey v)) := by
  have lt {k l : Int} (h : k < l) : some Ordering.lt = some (compare k l) := by rw [Int.compare_eq_lt.2 h]
  have gt {k l : Int} (h : l < k) : some Ordering.gt = some (compare k l) := by rw [Int.compare_eq_gt.2 h]
  -- two finite ones of one sign are compared by their magnitudes; all else is decided by the kinds and the signs
  cases hu with
  | @zero sign =>
    cases hv with
    | @zero sign' => rfl
    | @finite sign' _ _ _ hpos' hcanonical' =>
      have hmagnitude' := hcanonical'.magnitude_lt hpos'
      cases sign' <;> dsimp only [unpackedKey, withSign] <;> first | exact lt (by omega) | exact gt (by omega)
    | @infinity sign' => cases sign' <;> rfl
  | @finite sign _ _ _ hpos hcanonical =>
    have hmagnitude := hcanonical.magnitude_lt hpos
    cases hv with
    | @zero sign' =>
      cases sign <;> dsimp only [unpackedKey, withSign] <;> first | exact lt (by omega) | exact gt (by omega)
    | @finite sign' _ _ _ hpos' hcanonical' =>
      have hmagnitude' := hcanonical'.magnitude_lt hpos'
      have hcompare := hcanonical.compare_eq hcanonical'
      cases sign <;> cases sign' <;> dsimp only [unpackedKey, withSign]
      · rw [compare_neg, ← hcompare]
        rfl
      · exact lt (by omega)
      · exact gt (by omega)
      · rw [← hcompare]
        rfl
    | @infinity sign' =>
      cases sign <;> cases sign' <;> dsimp only [unpackedKey, withSign] <;>
        first | exact lt (by omega) | exact gt (by omega)
  | @infinity sign =>
    cases hv with
    | @zero sign' => cases sign <;> rfl
    | @finite sign' _ _ _ hpos' hcanonical' =>
      have hmagnitude' := hcanonical'.magnitude_lt hpos'
      cases sign <;> cases sign' <;> dsimp only [unpackedKey, withSign] <;>
        first | exact lt (by omega) | exact gt (by omega)
    | @infinity sign' => cases sign <;> cases sign' <;> rfl

/-! ## Doubles -/

variable {x y z : Float}

theorem hasWord_of_isNaN (hx : x.isNaN = false) : HasWord x.toModel.unpack (bitsOf x) := by
  rcases hasWord_bitsOf x with ⟨-, -, hnan⟩ | hword
  · have hisNaN : x.isNaN = x.toModel.unpack.isNaN := rfl
    rw [hisNaN, hnan] at hx
    cases hx
  · exact hword

theorem compare_unpack (hx : x.isNaN = false) (hy : y.isNaN = false) :
    x.toModel.unpack.compare y.toModel.unpack = some (compare (key x) (key y)) := by
  have hwordx := hasWord_of_isNaN hx
  have hwordy := hasWord_of_isNaN hy
  rw [hwordx.compare_eq hwordy, key, key, hwordx.key_eq, hwordy.key_eq]

/-- Only what is comparable is no NaN. -/
theorem isNaN_of_compare {order : Ordering} (h : x.toModel.unpack.compare y.toModel.unpack = some order) :
    x.isNaN = false ∧ y.isNaN = false := by
  show x.toModel.unpack.isNaN = false ∧ y.toModel.unpack.isNaN = false
  generalize x.toModel.unpack = u at h
  generalize y.toModel.unpack = v at h
  cases u with
  | notANumber => cases h
  | _ =>
    cases v with
    | notANumber => cases h
    | _ => exact ⟨rfl, rfl⟩

/-- **Doubles are in the order of their signed words.** -/
theorem le_iff_key : x ≤ y ↔ x.isNaN = false ∧ y.isNaN = false ∧ key x ≤ key y := by
  have hle : x ≤ y ↔ (x.toModel.unpack.compare y.toModel.unpack).any (·.isLE) = true := by
    show decide (x.toModel.unpack.le y.toModel.unpack = true) = true ↔ _
    rw [decide_eq_true_iff]
    rfl
  rw [hle]
  constructor
  · intro h
    obtain ⟨order, hcompare, horder⟩ := (Option.any_eq_true _ _).1 h
    obtain ⟨hx, hy⟩ := isNaN_of_compare hcompare
    rw [compare_unpack hx hy] at hcompare
    cases hcompare
    exact ⟨hx, hy, Int.isLE_compare.1 horder⟩
  · rintro ⟨hx, hy, hkey⟩
    rw [compare_unpack hx hy]
    exact Int.isLE_compare.2 hkey

/-- **Doubles are equal if their signed words are.** -/
theorem beq_iff_key : (x == y) = true ↔ x.isNaN = false ∧ y.isNaN = false ∧ key x = key y := by
  have hbeq : (x == y) = true ↔ x.toModel.unpack.compare y.toModel.unpack = some .eq := by
    show (_ == some Ordering.eq) = true ↔ _
    rw [beq_iff_eq]
  rw [hbeq]
  constructor
  · intro hcompare
    obtain ⟨hx, hy⟩ := isNaN_of_compare hcompare
    rw [compare_unpack hx hy, Option.some.injEq] at hcompare
    exact ⟨hx, hy, Int.compare_eq_eq.1 hcompare⟩
  · rintro ⟨hx, hy, hkey⟩
    rw [compare_unpack hx hy, Int.compare_eq_eq.2 hkey]

theorem le_trans (h : x ≤ y) (h' : y ≤ z) : x ≤ z := by
  obtain ⟨hx, -, hkey⟩ := le_iff_key.1 h
  obtain ⟨-, hz, hkey'⟩ := le_iff_key.1 h'
  exact le_iff_key.2 ⟨hx, hz, Int.le_trans hkey hkey'⟩

theorem beq_of_le_of_le (h : x ≤ y) (h' : y ≤ x) : (x == y) = true := by
  obtain ⟨hx, hy, hkey⟩ := le_iff_key.1 h
  exact beq_iff_key.2 ⟨hx, hy, Int.le_antisymm hkey (le_iff_key.1 h').2.2⟩

theorem le_of_beq (h : (x == y) = true) : x ≤ y := by
  obtain ⟨hx, hy, hkey⟩ := beq_iff_key.1 h
  exact le_iff_key.2 ⟨hx, hy, Int.le_of_eq hkey⟩

end MiniScheme.Binary64
