import MiniScheme.Binary64.Basic
import Mathlib.Algebra.Ring.Int.Defs
import Mathlib.Algebra.Ring.Nat

/-!
# The words of doubles

A double is a word of 64 bits: a sign, an exponent field and a fraction. Unpacking a word gives the significand and the
exponent that arithmetic computes with, and packing them gives the word back.

* `packComponents_toNat` — a word is the sum of its three pieces.
* `hasWord_unpack`, `HasWord.pack_toNat` — unpacking a word and packing it again, `Canonical` significands included.
* `bitsOf_inj` — a double is determined by its bits.
* `bitsOf_ofBits` — a double of some bits has these bits, unless they are those of a NaN.
-/

namespace MiniScheme.Binary64

open Float.Model (UnpackedFloat Format)
open Float.Model.UnpackedFloat (Sign unpack pack unpackMantissa unpackExponent unpackSign packComponents)

/-! ## Pieces -/

theorem unpackMantissa_toNat (b : BitVec 64) :
    (@unpackMantissa Format.binary64 b).toNat = b.toNat % 2 ^ 52 := by
  simp [unpackMantissa]

theorem unpackExponent_toNat (b : BitVec 64) :
    (@unpackExponent Format.binary64 b).toNat = b.toNat / 2 ^ 52 % 2 ^ 11 := by
  simp [unpackExponent, Nat.shiftRight_eq_div_pow]

theorem unpackSign_toNat (b : BitVec 64) :
    (@unpackSign Format.binary64 b).toNat = b.toNat / 2 ^ 63 := by
  have width : b.toNat < 2 ^ 64 := b.isLt
  show ((b.extractLsb 63 63).cast _).toNat = _
  rw [BitVec.toNat_cast, BitVec.extractLsb_toNat, Nat.shiftRight_eq_div_pow]
  omega

/-- A sign is one bit, which is set for a negative one. -/
def signBit (sign : Sign) : Nat := sign.toBitVec.toNat

@[simp] theorem signBit_positive : signBit .positive = 0 := rfl

@[simp] theorem signBit_negative : signBit .negative = 1 := rfl

theorem signBit_le (sign : Sign) : signBit sign ≤ 1 := by
  cases sign <;> simp

theorem signBit_inj {sign sign' : Sign} (h : signBit sign = signBit sign') : sign = sign' := by
  cases sign <;> cases sign' <;> simp_all

theorem signBit_ofBitVec (b : BitVec 1) : signBit (Sign.ofBitVec b) = b.toNat := by
  have hlt := b.isLt
  unfold signBit Sign.ofBitVec
  split
  · rename_i hzero
    rw [hzero]
    rfl
  · rename_i hone
    have hne : b.toNat ≠ 0 := fun hzero => hone (BitVec.eq_of_toNat_eq hzero)
    show 1 = b.toNat
    omega

theorem packComponents_toNat (sign : Sign) (exponent : BitVec 11) (mantissa : BitVec 52) :
    (packComponents Format.binary64 sign exponent mantissa).toNat
      = signBit sign * 2 ^ 63 + exponent.toNat * 2 ^ 52 + mantissa.toNat := by
  have hfield : (sign.toBitVec ++ exponent).toNat = sign.toBitVec.toNat * 2 ^ 11 + exponent.toNat := by
    rw [BitVec.toNat_append, ← Nat.shiftLeft_add_eq_or_of_lt exponent.isLt, Nat.shiftLeft_eq]
  show (sign.toBitVec ++ exponent ++ mantissa).toNat = _
  rw [BitVec.toNat_append, ← Nat.shiftLeft_add_eq_or_of_lt mantissa.isLt, Nat.shiftLeft_eq, hfield]
  unfold signBit
  omega

/-- The hidden bit stands in front of the fraction. -/
theorem hidden_toNat (fraction : BitVec 52) : (1#1 ++ fraction).toNat = 2 ^ 52 + fraction.toNat := by
  rw [BitVec.toNat_append, ← Nat.shiftLeft_add_eq_or_of_lt fraction.isLt]
  rfl

theorem bias_eq : ((Format.binary64.exponentBias : Nat) : Int) = 1023 := rfl

/-! ## What is unpacked -/

/-- A significand of 53 binary digits with its exponent, or a shorter one with the least exponent there is. -/
structure Canonical (mantissa : Nat) (exponent : Int) : Prop where
  narrow : mantissa < 2 ^ 53
  least : -1074 ≤ exponent
  greatest : exponent ≤ 971
  normal : exponent = -1074 ∨ 2 ^ 52 ≤ mantissa

/-- The word of what is unpacked. The hidden bit of a significand is worth one step of the exponent field. -/
inductive HasWord : UnpackedFloat → Nat → Prop where
  | zero {sign : Sign} {word : Nat} (hword : word = signBit sign * 2 ^ 63) : HasWord (.zero sign) word
  | finite {sign : Sign} {mantissa word : Nat} {exponent : Int} {hnonzero : 0 < mantissa}
    (hcanonical : Canonical mantissa exponent)
    (hword : (word : Int) = signBit sign * 2 ^ 63 + (exponent + 1074) * 2 ^ 52 + mantissa) :
    HasWord (.finite sign mantissa exponent hnonzero) word
  | infinity {sign : Sign} {word : Nat} (hword : word = signBit sign * 2 ^ 63 + 2047 * 2 ^ 52) :
    HasWord (.infinity sign) word

/-- What is unpacked of a word has that word, unless the field is full and there is a fraction. -/
theorem hasWord_unpack (b : BitVec 64) :
    b.toNat / 2 ^ 52 % 2 ^ 11 = 2047 ∧ b.toNat % 2 ^ 52 ≠ 0 ∧ unpack Format.binary64 b = .notANumber ∨
      HasWord (unpack Format.binary64 b) b.toNat := by
  have hfield := unpackExponent_toNat b
  have hfraction := unpackMantissa_toNat b
  have hsign : signBit (Sign.ofBitVec (@unpackSign Format.binary64 b)) = b.toNat / 2 ^ 63 := by
    rw [signBit_ofBitVec, unpackSign_toNat]
  have hwidth : b.toNat < 2 ^ 64 := b.isLt
  have hbias := bias_eq
  have hfieldZero : @unpackExponent Format.binary64 b = 0#11 ↔ b.toNat / 2 ^ 52 % 2 ^ 11 = 0 := by
    rw [← hfield, ← BitVec.toNat_inj, BitVec.toNat_ofNat]
    rfl
  have hfieldFull : @unpackExponent Format.binary64 b = -1#11 ↔ b.toNat / 2 ^ 52 % 2 ^ 11 = 2047 := by
    rw [← hfield, ← BitVec.toNat_inj]
    rfl
  have hfractionZero : @unpackMantissa Format.binary64 b = 0#52 ↔ b.toNat % 2 ^ 52 = 0 := by
    rw [← hfraction, ← BitVec.toNat_inj, BitVec.toNat_ofNat]
    rfl
  unfold unpack
  dsimp only
  by_cases hfull : @unpackExponent Format.binary64 b = -1#11
  · have hall := hfieldFull.1 hfull
    rw [if_pos hfull]
    by_cases hnone : @unpackMantissa Format.binary64 b = 0#52
    · have hzero := hfractionZero.1 hnone
      rw [if_pos hnone]
      refine .inr (.infinity ?_)
      omega
    · rw [if_neg hnone]
      exact .inl ⟨hall, fun hzero => hnone (hfractionZero.2 hzero), rfl⟩
  have hnotAll := mt hfieldFull.2 hfull
  rw [if_neg hfull]
  right
  by_cases hsubnormal : @unpackExponent Format.binary64 b = 0#11
  · have hnoField := hfieldZero.1 hsubnormal
    rw [if_pos hsubnormal]
    by_cases hnone : @unpackMantissa Format.binary64 b = 0#52
    · have hzero := hfractionZero.1 hnone
      rw [dif_pos hnone]
      refine .zero ?_
      omega
    · rw [dif_neg hnone]
      refine .finite ⟨?_, ?_, ?_, ?_⟩ ?_ <;> omega
  · have hsomeField := mt hfieldZero.2 hsubnormal
    have hhidden := hidden_toNat (@unpackMantissa Format.binary64 b)
    rw [if_neg hsubnormal]
    refine .finite ⟨?_, ?_, ?_, ?_⟩ ?_ <;> omega

/-- Packing gives the word. -/
theorem HasWord.pack_toNat {u : UnpackedFloat} {word : Nat} (h : HasWord u word) :
    (pack Format.binary64 u).toNat = word := by
  cases h with
  | @zero sign word hword =>
    show (packComponents Format.binary64 sign 0#11 0#52).toNat = _
    rw [packComponents_toNat, BitVec.toNat_ofNat, BitVec.toNat_ofNat]
    omega
  | @infinity sign word hword =>
    have hall : (-1#11).toNat = 2047 := rfl
    show (packComponents Format.binary64 sign (-1#11) 0#52).toNat = _
    rw [packComponents_toNat, hall, BitVec.toNat_ofNat]
    omega
  | @finite sign mantissa word exponent hnonzero hcanonical hword =>
    obtain ⟨hnarrow, hleast, hgreatest, hnormal⟩ := hcanonical
    have hbiased : (exponent + (Format.binary64.exponentBias : Nat) + (52 : Nat)).toNat = (exponent + 1075).toNat := by
      rw [bias_eq]
      omega
    have hdigits : Format.binary64.mantissaBits = 53 := rfl
    have hpos : mantissa ≠ 0 := Nat.ne_of_gt hnonzero
    have hlog : Nat.log2 mantissa < 53 := (Nat.log2_lt hpos).2 hnarrow
    unfold pack
    dsimp only
    rw [hbiased, if_neg (by omega)]
    by_cases hfull : Nat.log2 mantissa + 1 = Format.binary64.mantissaBits
    · have hhidden : 2 ^ 52 ≤ mantissa := (Nat.le_log2 hpos).1 (by omega)
      rw [if_pos hfull, packComponents_toNat, BitVec.toNat_ofNat, BitVec.toNat_ofNat]
      omega
    · have hsubnormal : mantissa < 2 ^ 52 := (Nat.log2_lt hpos).1 (by omega)
      rw [if_neg hfull, packComponents_toNat, BitVec.toNat_ofNat, BitVec.toNat_ofNat]
      omega

/-! ## Doubles and their words -/

/-- The bits of a double as a number. -/
def bitsOf (x : Float) : Nat := x.toBits.toNat

theorem bitsOf_lt (x : Float) : bitsOf x < 2 ^ 64 := x.toBits.toNat_lt

/-- A double is determined by its bits. -/
theorem bitsOf_inj {x y : Float} (h : bitsOf x = bitsOf y) : x = y := by
  have hword : x.toBits = y.toBits := UInt64.toNat_inj.1 h
  obtain ⟨⟨_, _⟩⟩ := x
  obtain ⟨⟨_, _⟩⟩ := y
  cases hword
  rfl

/-- What a double unpacks to has its bits, unless it is a NaN. -/
theorem hasWord_bitsOf (x : Float) :
    bitsOf x / 2 ^ 52 % 2 ^ 11 = 2047 ∧ bitsOf x % 2 ^ 52 ≠ 0 ∧ x.toModel.unpack = .notANumber ∨
      HasWord x.toModel.unpack (bitsOf x) :=
  hasWord_unpack x.toModel.toBits.toBitVec

/-- **A double of some bits has these bits**, unless they are those of a NaN. -/
theorem bitsOf_ofBits {bits : Nat} (hwidth : bits < 2 ^ 64)
    (hnumber : bits / 2 ^ 52 % 2 ^ 11 = 2047 → bits % 2 ^ 52 = 0) :
    bitsOf (Float.ofBits (UInt64.ofNat bits)) = bits := by
  have hbits : (UInt64.ofNat bits).toBitVec.toNat = bits := UInt64.toNat_ofNat_of_lt' hwidth
  rcases hasWord_unpack (UInt64.ofNat bits).toBitVec with ⟨hfull, hsome, -⟩ | hword
  · rw [hbits] at hfull hsome
    exact absurd (hnumber hfull) hsome
  · exact hword.pack_toNat.trans hbits

end MiniScheme.Binary64
