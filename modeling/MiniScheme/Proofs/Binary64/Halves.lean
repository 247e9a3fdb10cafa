import MiniScheme.Proofs.Binary64.Value

/-!
# Whole numbers and halves in units

A half is added to a number of units, the sum is rounded to a double, and what is beyond the point is dropped. The
rounding can carry the sum over to the next whole number.

* `Representable`, `roundUnits` — the units that doubles have, and those that units are rounded to.
* `halfUp`, `Keeps` — what units are rounded to, and that it is the whole part of the exact sum.
* `keeps_of_nonneg`, `keeps_of_neg`, `halfUp_of_overshot` — it is, unless the units are `Overshot`.
-/

namespace MiniScheme.Binary64

/-! ## Units that doubles have -/

/-- The units of some double. -/
def Representable (units : Nat) : Prop := ∃ bits, unitsOfBits bits = units

/-- A significand of 53 digits at any place is that of a double. -/
theorem representable_mul {m : Nat} (j : Nat) (hm : m ≤ 2 ^ 53) : Representable (m * 2 ^ j) := by
  induction j generalizing m with
  | zero => exact ⟨_, unitsOfBits_scaled hm (.inl rfl)⟩
  | succ j ih =>
    by_cases hfull : 2 ^ 52 ≤ m
    · exact ⟨_, unitsOfBits_scaled hm (.inr hfull)⟩
    · have hdouble : m * 2 ^ (j + 1) = 2 * m * 2 ^ j := by
        rw [pow_succ]
        ring
      rw [hdouble]
      exact ih (by omega)

/-- The units that a number of units is rounded to. -/
def roundUnits (n : Nat) : Nat := unitsOfBits (rounded (n * unitsPerOne) unitsPerOne)

theorem unitsOfBits_roundedBits {n : Nat} (hfinite : roundedBits n unitsPerOne < infinityBits) :
    unitsOfBits (roundedBits n unitsPerOne) = roundUnits n := by
  rw [roundedBits_eq] at hfinite ⊢
  unfold roundUnits
  rw [Nat.min_eq_left (by omega)]

theorem roundUnits_representable {n : Nat} (h : Representable n) : roundUnits n = n := by
  obtain ⟨bits, rfl⟩ := h
  unfold roundUnits
  rw [rounded_unitsOfBits bits unitsPerOne_pos]

/-- Nothing is rounded past a double. -/
theorem roundUnits_between {low n high : Nat} (hlow : Representable low) (hhigh : Representable high) (hge : low ≤ n)
    (hle : n ≤ high) : low ≤ roundUnits n ∧ roundUnits n ≤ high := by
  obtain ⟨bits, rfl⟩ := hlow
  obtain ⟨bits', rfl⟩ := hhigh
  have hU : (0 : ℤ) < unitsPerOne := by exact_mod_cast unitsPerOne_pos
  have hnearest (b : Nat) : |(n : ℤ) - roundUnits n| ≤ |(n : ℤ) - unitsOfBits b| := by
    have h := (rounded_nearest (n * unitsPerOne) unitsPerOne_pos b).1
    rw [Nat.cast_mul, ← sub_mul, ← sub_mul, abs_mul, abs_mul] at h
    exact le_of_mul_le_mul_right h (abs_pos.2 hU.ne')
  have hbelow := hnearest bits
  have habove := hnearest bits'
  have hfarBelow : |(n : ℤ) - unitsOfBits bits| = n - unitsOfBits bits := abs_of_nonneg (by omega)
  have hfarAbove : |(n : ℤ) - unitsOfBits bits'| = unitsOfBits bits' - n := by
    rw [abs_sub_comm]
    exact abs_of_nonneg (by omega)
  rcases abs_cases ((n : ℤ) - roundUnits n) with ⟨hdistance, hside⟩ | ⟨hdistance, hside⟩ <;> omega

/-- Units with so many binary digits keep the first 53 of them. -/
theorem roundUnits_eq {n k : Nat} (hlow : 2 ^ 52 * 2 ^ k ≤ n) (hhigh : n < 2 ^ 53 * 2 ^ k) :
    roundUnits n = roundHalfEven n (2 ^ k) * 2 ^ k := by
  have hpos : 0 < 2 ^ k := Nat.two_pow_pos k
  have hlog : Nat.log2 n = 52 + k := by
    rw [← pow_add] at hlow hhigh
    have hleading : 0 < 2 ^ (52 + k) := Nat.two_pow_pos _
    refine (Nat.log2_eq_iff (by omega)).2 ⟨hlow, ?_⟩
    rw [Nat.add_right_comm]
    exact hhigh
  have hbeyond : beyond (n * unitsPerOne) unitsPerOne = k := by
    unfold beyond
    rw [Nat.mul_div_cancel _ unitsPerOne_pos, hlog]
    omega
  have hsame : roundHalfEven (n * unitsPerOne) (unitsPerOne * 2 ^ k) = roundHalfEven n (2 ^ k) :=
    roundHalfEven_congr (Nat.mul_pos unitsPerOne_pos hpos) hpos (Nat.mul_assoc n unitsPerOne (2 ^ k))
  unfold roundUnits
  rw [unitsOfBits_rounded _ unitsPerOne_pos, hbeyond, hsame]

/-- Division with remainder says how a quotient rounds. -/
theorem roundHalfEven_add (q : Nat) {r d : Nat} (hr : r < d) :
    roundHalfEven (q * d + r) d = if 2 * r < d ∨ 2 * r = d ∧ q % 2 = 0 then q else q + 1 := by
  have hd : 0 < d := by omega
  have hquotient : (q * d + r) / d = q := by
    rw [Nat.add_comm, Nat.add_mul_div_right _ _ hd, Nat.div_eq_of_lt hr, Nat.zero_add]
  have hremainder : (q * d + r) % d = r := by
    rw [Nat.add_comm, Nat.add_mul_mod_self_right, Nat.mod_eq_of_lt hr]
  unfold roundHalfEven
  rw [hquotient, hremainder]

/-! ## Adding a half -/

/-- The units of one half. -/
def half : Nat := Nat.pow 2 1073

theorem unitsPerOne_eq_half : unitsPerOne = 2 * half := by
  decide +kernel

theorem half_pos : 0 < half := by
  unfold half
  apply Nat.pow_pos
  decide

/-- The units that a number of units with a sign is rounded to. -/
def roundSigned (i : ℤ) : ℤ := signed (decide (i < 0)) (roundUnits i.natAbs)

/-- What units are rounded to, the half being added first. -/
def halfUp (i : ℤ) : ℤ := roundSigned (i + half) / unitsPerOne

/-! ## Where the sum is rounded over a whole number -/

/-- The units of the doubles for which it is: the greatest one below one half, and the odd whole numbers that have 53
binary digits. -/
def Overshot (i : ℤ) : Prop :=
  i = ((Nat.pow 2 53 - 1) * Nat.pow 2 1020 : Nat) ∨
    ∃ n : ℤ, i = n * unitsPerOne ∧ n % 2 = 1 ∧ 2 ^ 52 < |n| ∧ |n| < 2 ^ 53

theorem unitsPerOne_eq_two_pow : unitsPerOne = 2 ^ 1074 := by
  delta unitsPerOne
  generalize 1074 = e
  rfl

theorem half_eq_two_pow : half = 2 ^ 1073 := by
  delta half
  generalize 1073 = e
  rfl

theorem half_eq {j : Nat} (hj : j ≤ 1073) : half = 2 ^ (1073 - j) * 2 ^ j := by
  rw [half_eq_two_pow, ← pow_add, Nat.sub_add_cancel hj]

theorem two_pow_eq {j : Nat} (hj : 1074 ≤ j) : 2 ^ j = 2 ^ (j - 1074) * unitsPerOne := by
  rw [unitsPerOne_eq_two_pow, ← pow_add, Nat.sub_add_cancel hj]

theorem two_pow_eq_half {j : Nat} (hj : 1073 ≤ j) : 2 ^ j = 2 ^ (j - 1073) * half := by
  rw [half_eq_two_pow, ← pow_add, Nat.sub_add_cancel hj]

theorem representable_mul_half {m : Nat} (hm : m ≤ 2 ^ 53) : Representable (m * half) := by
  rw [half_eq_two_pow]
  exact representable_mul _ hm

theorem representable_mul_unitsPerOne {m : Nat} (hm : m ≤ 2 ^ 53) : Representable (m * unitsPerOne) := by
  rw [unitsPerOne_eq_two_pow]
  exact representable_mul _ hm

theorem roundSigned_natCast (n : Nat) : roundSigned n = roundUnits n := by
  unfold roundSigned
  rw [decide_eq_false (by omega), Int.natAbs_natCast, signed_false]

theorem roundSigned_neg {n : Nat} (hpos : 0 < n) : roundSigned (-n) = -(roundUnits n : ℤ) := by
  unfold roundSigned
  rw [decide_eq_true (by omega), Int.natAbs_neg, Int.natAbs_natCast, signed_true]

/-- No whole number lies between the sum and what it is rounded to if a double above both keeps them apart. -/
theorem roundUnits_div_eq {n q high : Nat} (hrepresentable : Representable (q * unitsPerOne))
    (hhigh : Representable high) (hge : q * unitsPerOne ≤ n) (hle : n ≤ high)
    (hbelow : high < q * unitsPerOne + unitsPerOne) :
    (roundUnits n : ℤ) / unitsPerOne = (n : ℤ) / unitsPerOne := by
  obtain ⟨hlower, hupper⟩ := roundUnits_between hrepresentable hhigh hge hle
  have hU : (0 : ℤ) < unitsPerOne := by exact_mod_cast unitsPerOne_pos
  have hcast : ((q * unitsPerOne : Nat) : ℤ) = q * unitsPerOne := Nat.cast_mul _ _
  have hquotient (a : Nat) (hge : q * unitsPerOne ≤ a) (hle : a ≤ high) : (a : ℤ) / unitsPerOne = q := by
    rw [Int.ediv_eq_iff_of_pos hU]
    omega
  rw [hquotient _ hlower hupper, hquotient n hge hle]

/-- Halves between whole numbers of 53 binary digits go to the even one. -/
theorem roundUnits_half {n : Nat} (hlow : 2 ^ 52 ≤ n) (hhigh : n < 2 ^ 53) :
    roundUnits (n * unitsPerOne + half) = (n + n % 2) * unitsPerOne := by
  have hsplit := unitsPerOne_eq_half
  have hpos := half_pos
  have hrounded := roundUnits_eq (n := n * unitsPerOne + half) (k := 1074)
  rw [← unitsPerOne_eq_two_pow] at hrounded
  generalize unitsPerOne = U at *
  generalize half = H at *
  have hlower : 2 ^ 52 * U ≤ n * U := Nat.mul_le_mul_right U hlow
  have hupper : (n + 1) * U ≤ 2 ^ 53 * U := Nat.mul_le_mul_right U hhigh
  rw [Nat.succ_mul] at hupper
  rw [hrounded (by omega) (by omega), roundHalfEven_add n (by omega)]
  congr 1
  split <;> omega

/-- A half is less than half a step between doubles that are so great. -/
theorem roundUnits_add_half {m j : Nat} (hnarrow : m < 2 ^ 53) (hnormal : 2 ^ 52 ≤ m) (hj : 1075 ≤ j) :
    roundUnits (m * 2 ^ j + half) = m * 2 ^ j := by
  have hsplit := unitsPerOne_eq_half
  have hpos := half_pos
  have hstep : 4 * half ≤ 2 ^ j := by
    have hdouble : 2 ≤ 2 ^ (j - 1074) := Nat.pow_le_pow_right (n := 2) (i := 1) (by decide) (by omega)
    rw [two_pow_eq (by omega)]
    calc 4 * half = 2 * unitsPerOne := by omega
      _ ≤ 2 ^ (j - 1074) * unitsPerOne := Nat.mul_le_mul_right _ hdouble
  have hrounded := roundUnits_eq (n := m * 2 ^ j + half) (k := j)
  generalize half = H at *
  generalize 2 ^ j = d at *
  have hlower : 2 ^ 52 * d ≤ m * d := Nat.mul_le_mul_right d hnormal
  have hupper : (m + 1) * d ≤ 2 ^ 53 * d := Nat.mul_le_mul_right d hnarrow
  rw [Nat.succ_mul] at hupper
  rw [hrounded (by omega) (by omega), roundHalfEven_add m (by omega), if_pos (.inl (by omega))]

/-- Also below a power of two, where the steps are half as long. -/
theorem roundUnits_sub_half {m j : Nat} (hnarrow : m < 2 ^ 53) (hnormal : 2 ^ 52 ≤ m) (hj : 1075 ≤ j) :
    roundUnits (m * 2 ^ j - half) = m * 2 ^ j := by
  have hsplit := unitsPerOne_eq_half
  have hpos := half_pos
  obtain ⟨i, rfl⟩ : ∃ i, j = i + 1 := ⟨j - 1, by omega⟩
  have hstep : 2 * half ≤ 2 ^ i := by
    rw [two_pow_eq (by omega), ← hsplit]
    exact Nat.le_mul_of_pos_left _ (Nat.two_pow_pos _)
  have hrounded := roundUnits_eq (n := m * 2 ^ (i + 1) - half) (k := i + 1)
  have hfiner := roundUnits_eq (n := m * 2 ^ (i + 1) - half) (k := i)
  have hdouble : 2 ^ (i + 1) = 2 ^ i * 2 := pow_succ 2 i
  rw [hdouble] at hrounded hfiner ⊢
  clear hdouble
  generalize half = H at *
  generalize 2 ^ i = d at *
  rcases Nat.eq_or_lt_of_le hnormal with rfl | hmore
  · have hsum : 2 ^ 52 * (d * 2) - H = (2 ^ 53 - 1) * d + (d - H) := by omega
    rw [hsum] at hfiner ⊢
    rw [hfiner (by omega) (by omega), roundHalfEven_add _ (by omega), if_neg (by omega)]
    omega
  · obtain ⟨n, rfl⟩ : ∃ n, m = n + 1 := ⟨m - 1, by omega⟩
    have hsum : (n + 1) * (d * 2) - H = n * (d * 2) + (d * 2 - H) := by
      rw [Nat.succ_mul]
      omega
    have hlower : 2 ^ 52 * (d * 2) ≤ n * (d * 2) := Nat.mul_le_mul_right _ (by omega)
    have hupper : (n + 2) * (d * 2) ≤ 2 ^ 53 * (d * 2) := Nat.mul_le_mul_right _ (by omega)
    rw [Nat.add_mul] at hupper
    rw [hsum] at hrounded ⊢
    rw [hrounded (by omega) (by omega), roundHalfEven_add n (by omega), if_neg (by omega)]

/-- What the sum of units is rounded to has the whole part of the sum. -/
def Keeps (i : ℤ) : Prop := halfUp i = (i + half) / unitsPerOne

/-- A sum that is the sum of a double and a half, where no rounding takes place. -/
theorem keeps_of_exact {i : ℤ} (h : Representable (i + half).natAbs) : Keeps i := by
  have hexact : roundSigned (i + half) = i + half := by
    unfold roundSigned
    rw [roundUnits_representable h]
    rcases lt_or_ge (i + half) 0 with hneg | hpos
    · rw [decide_eq_true hneg, signed_true]
      omega
    · rw [decide_eq_false (by omega), signed_false]
      omega
  unfold Keeps halfUp
  rw [hexact]

theorem halfUp_natCast (n : Nat) : halfUp n = (roundUnits (n + half) : ℤ) / unitsPerOne := by
  unfold halfUp
  rw [← Nat.cast_add, roundSigned_natCast]

/-- A sum between two doubles that no whole number keeps apart. -/
theorem keeps_of_between {n q high : Nat} (hlow : Representable (q * unitsPerOne)) (hhigh : Representable high)
    (hge : q * unitsPerOne ≤ n + half) (hle : n + half ≤ high) (hbelow : high < q * unitsPerOne + unitsPerOne) :
    Keeps n := by
  unfold Keeps
  rw [halfUp_natCast, roundUnits_div_eq hlow hhigh hge hle hbelow, Nat.cast_add]

theorem unitsPerOne_pos_int : (0 : ℤ) < unitsPerOne := by exact_mod_cast unitsPerOne_pos

theorem add_half_ediv (c : ℤ) : (c * unitsPerOne + half) / unitsPerOne = c := by
  have hsplit := unitsPerOne_eq_half
  have hpos := half_pos
  rw [Int.ediv_eq_iff_of_pos unitsPerOne_pos_int]
  omega

theorem mul_unitsPerOne_ediv (c : ℤ) : c * unitsPerOne / unitsPerOne = c :=
  Int.mul_ediv_cancel c unitsPerOne_pos_int.ne'

section

variable {m j : Nat}

/-- Below one half the sum stays below one, if the double is not the last of them. -/
theorem keeps_of_small (hnarrow : m < 2 ^ 53) (hj : j ≤ 1020) :
    Keeps (m * 2 ^ j : Nat) ∨ Overshot (m * 2 ^ j : Nat) := by
  have hsplit := unitsPerOne_eq_half
  have hpos := half_pos
  obtain ⟨e, he⟩ : ∃ e, e = 1020 := ⟨_, rfl⟩
  have hhalf := half_eq (j := e) (by omega)
  have hbinade : 1073 - e = 53 := by omega
  rw [hbinade] at hhalf
  have hzero : Representable (0 * unitsPerOne) := ⟨0, (Nat.zero_mul _).symm⟩
  have hhigh : Representable ((2 ^ 53 - 1) * (2 ^ e * 2)) := by
    rw [← pow_succ]
    exact representable_mul _ (by decide)
  by_cases hlast : (2 ^ 53 - 2) * 2 ^ e < m * 2 ^ j
  · right
    have hpower : 0 < 2 ^ e := Nat.two_pow_pos e
    have hm : m * 2 ^ j ≤ (2 ^ 53 - 1) * 2 ^ j := Nat.mul_le_mul_right _ (by omega)
    have hsame : j = e := by
      by_contra hless
      have hstep : 2 ^ (j + 1) ≤ 2 ^ e := Nat.pow_le_pow_right (by decide) (by omega)
      rw [pow_succ] at hstep
      omega
    subst hsame
    have hgreatest : m = Nat.pow 2 53 - 1 := by
      have hlt := Nat.lt_of_mul_lt_mul_right hlast
      rw [Nat.pow_eq]
      omega
    left
    rw [hgreatest, ← he]
    rfl
  · left
    apply keeps_of_between hzero hhigh
    all_goals
      generalize 2 ^ e = D at *
      generalize half = H at *
      generalize unitsPerOne = U at *
      omega

/-- From one half on, and where the doubles lie closer than whole numbers, the sum is a double or lies between a power
of two and that power and a half. -/
theorem keeps_of_fraction (hnarrow : m < 2 ^ 53) (hlarge : 1020 < j) (hfraction : j < 1074) :
    Keeps (m * 2 ^ j : Nat) := by
  have hsplit := unitsPerOne_eq_half
  have hpos := half_pos
  have hhalf := half_eq (j := j) (by omega)
  by_cases hexact : m + 2 ^ (1073 - j) ≤ 2 ^ 53
  · apply keeps_of_exact
    rw [← Nat.cast_add, Int.natAbs_natCast, hhalf, ← Nat.add_mul]
    exact representable_mul j hexact
  · have hbelow : j ≤ 1072 := by
      by_contra hbeyond
      have hlast : 1073 - j = 0 := by omega
      rw [hlast, pow_zero] at hexact
      omega
    have hpower : 2 ^ 53 * 2 ^ j = 2 ^ (53 + j - 1074) * unitsPerOne := by
      rw [← pow_add]
      exact two_pow_eq (by omega)
    have hmiddle : 2 ^ 53 * 2 ^ j + half = (2 ^ (j - 1020) + 1) * half := by
      have hexponent : 53 + j - 1073 = j - 1020 := by omega
      rw [← pow_add, two_pow_eq_half (by omega), hexponent, Nat.succ_mul]
    have hnarrower : 2 ^ (j - 1020) + 1 ≤ 2 ^ 53 := by
      have hle : 2 ^ (j - 1020) ≤ 2 ^ 52 := Nat.pow_le_pow_right (by decide) (by omega)
      omega
    have hm : m * 2 ^ j ≤ 2 ^ 53 * 2 ^ j := Nat.mul_le_mul_right _ hnarrow.le
    have hM : 2 ^ 53 * 2 ^ j ≤ (m + 2 ^ (1073 - j)) * 2 ^ j := Nat.mul_le_mul_right _ (by omega)
    rw [Nat.add_mul, ← hhalf] at hM
    have hlow : Representable (2 ^ (53 + j - 1074) * unitsPerOne) := by
      rw [← hpower]
      exact representable_mul j le_rfl
    have hhigh : Representable (2 ^ 53 * 2 ^ j + half) := by
      rw [hmiddle]
      exact representable_mul_half hnarrower
    refine keeps_of_between hlow hhigh ?_ (Nat.add_le_add_right hm half) ?_
    · rw [← hpower]
      exact hM
    · rw [← hpower]
      generalize half = H at *
      generalize unitsPerOne = U at *
      omega

/-- Where the doubles are the whole numbers, the half is a tie, which goes to the even one. -/
theorem keeps_of_whole (hnarrow : m < 2 ^ 53) (hfull : 2 ^ 52 ≤ m) :
    Keeps (m * unitsPerOne : Nat) ∨ Overshot (m * unitsPerOne : Nat) := by
  rcases Nat.mod_two_eq_zero_or_one m with heven | hodd
  · left
    unfold Keeps
    rw [halfUp_natCast, roundUnits_half hfull hnarrow, heven, Nat.cast_mul, Nat.cast_mul, add_half_ediv,
      mul_unitsPerOne_ediv, Nat.add_zero]
  · refine .inr (.inr ⟨m, Nat.cast_mul _ _, by omega, ?_, ?_⟩)
    · rw [abs_of_nonneg (by omega)]
      omega
    · rw [abs_of_nonneg (by omega)]
      omega

/-- Where the doubles lie further apart, the half is rounded away. -/
theorem keeps_of_multiple (hnarrow : m < 2 ^ 53) (hfull : 2 ^ 52 ≤ m) (hj : 1074 < j) : Keeps (m * 2 ^ j : Nat) := by
  unfold Keeps
  rw [halfUp_natCast, roundUnits_add_half hnarrow hfull hj, two_pow_eq (by omega), ← mul_assoc, Nat.cast_mul,
    add_half_ediv, mul_unitsPerOne_ediv]

/-- Doubles of at least zero keep the whole part, apart from those that are named. -/
theorem keeps_of_nonneg (hnarrow : m < 2 ^ 53) (hnormal : j = 0 ∨ 2 ^ 52 ≤ m) :
    Keeps (m * 2 ^ j : Nat) ∨ Overshot (m * 2 ^ j : Nat) := by
  rcases Nat.lt_or_ge 1020 j with hlarge | hsmall
  · rcases lt_trichotomy j 1074 with hfraction | rfl | hmultiple
    · exact .inl (keeps_of_fraction hnarrow hlarge hfraction)
    · rw [← unitsPerOne_eq_two_pow]
      exact keeps_of_whole hnarrow (by omega)
    · exact .inl (keeps_of_multiple hnarrow (by omega) hmultiple)
  · exact keeps_of_small hnarrow hsmall

/-- Below zero the sum has a smaller magnitude. -/
theorem halfUp_neg {n : Nat} (h : half < n) : halfUp (-n) = -(roundUnits (n - half) : ℤ) / unitsPerOne := by
  have hsum : -(n : ℤ) + half = -((n - half : Nat) : ℤ) := by omega
  unfold halfUp
  rw [hsum, roundSigned_neg (by omega)]

/-- A negated number is not rounded past by the half that is added. -/
theorem keeps_of_roundUnits {n : Nat} (c : ℕ) (hn : n = c * unitsPerOne) (h : half < n)
    (hround : roundUnits (n - half) = n) : Keeps (-n) := by
  unfold Keeps
  rw [halfUp_neg h, hround, hn, Nat.cast_mul, ← Int.neg_mul, add_half_ediv, mul_unitsPerOne_ediv]

/-- Below zero, where the doubles lie closer than whole numbers, the sum is a double or lies between zero and a half. -/
theorem keeps_neg_of_fraction (hnarrow : m < 2 ^ 53) (hfraction : j < 1074) : Keeps (-(m * 2 ^ j : Nat)) := by
  have hsplit := unitsPerOne_eq_half
  have hpos := half_pos
  have hhalf := half_eq (j := j) (by omega)
  rcases Nat.lt_or_ge m (2 ^ (1073 - j)) with hless | hmore
  · have hbelow : m * 2 ^ j ≤ half := by
      rw [hhalf]
      exact Nat.mul_le_mul_right _ hless.le
    have hsum : -((m * 2 ^ j : Nat) : ℤ) + half = (half - m * 2 ^ j : Nat) := by omega
    have hone : Representable half := by
      rw [← Nat.one_mul half]
      exact representable_mul_half (by decide)
    have hzero : Representable (0 * unitsPerOne) := ⟨0, (Nat.zero_mul _).symm⟩
    unfold Keeps halfUp
    rw [hsum, roundSigned_natCast]
    exact roundUnits_div_eq hzero hone (by omega) (by omega) (by omega)
  · apply keeps_of_exact
    have hsum : -((m * 2 ^ j : Nat) : ℤ) + half = -((m - 2 ^ (1073 - j)) * 2 ^ j : Nat) := by
      have hle : half ≤ m * 2 ^ j := by
        rw [hhalf]
        exact Nat.mul_le_mul_right _ hmore
      rw [Nat.sub_mul, ← hhalf]
      omega
    rw [hsum, Int.natAbs_neg, Int.natAbs_natCast]
    exact representable_mul j (Nat.le_trans (Nat.sub_le _ _) hnarrow.le)

/-- Where the doubles are the whole numbers, the tie is with the next one towards zero. -/
theorem keeps_neg_of_whole (hnarrow : m < 2 ^ 53) (hfull : 2 ^ 52 ≤ m) :
    Keeps (-(m * unitsPerOne : Nat)) ∨ Overshot (-(m * unitsPerOne : Nat)) := by
  have hsplit := unitsPerOne_eq_half
  have hpos := half_pos
  have hone : m * unitsPerOne = (m - 1) * unitsPerOne + unitsPerOne := by
    rw [← Nat.succ_mul, Nat.succ_eq_add_one, Nat.sub_add_cancel (by omega)]
  rcases Nat.mod_two_eq_zero_or_one m with heven | hodd
  · left
    rcases Nat.eq_or_lt_of_le hfull with rfl | hmore
    · apply keeps_of_exact
      have hsum : -((2 ^ 52 * unitsPerOne : Nat) : ℤ) + half = -((2 ^ 53 - 1) * half : Nat) := by omega
      rw [hsum, Int.natAbs_neg, Int.natAbs_natCast]
      exact representable_mul_half (by decide)
    · have hround := roundUnits_half (n := m - 1) (by omega) (by omega)
      have hodd : m - 1 + (m - 1) % 2 = m := by omega
      have hrest : (m - 1) * unitsPerOne + half = m * unitsPerOne - half := by omega
      rw [hodd, hrest] at hround
      exact keeps_of_roundUnits m rfl (by omega) hround
  · refine .inr (.inr ⟨-m, ?_, by omega, ?_, ?_⟩)
    · rw [Nat.cast_mul, Int.neg_mul]
    · rw [abs_neg, abs_of_nonneg (by omega)]
      omega
    · rw [abs_neg, abs_of_nonneg (by omega)]
      omega

theorem keeps_neg_of_multiple (hnarrow : m < 2 ^ 53) (hfull : 2 ^ 52 ≤ m) (hj : 1074 < j) :
    Keeps (-(m * 2 ^ j : Nat)) := by
  have hsplit := unitsPerOne_eq_half
  have hpos := half_pos
  have hmultiple : m * 2 ^ j = m * 2 ^ (j - 1074) * unitsPerOne := by
    rw [two_pow_eq (by omega), mul_assoc]
  have hlarge : half < m * 2 ^ j := by
    rw [hmultiple]
    have hquotient : 0 < m * 2 ^ (j - 1074) := Nat.mul_pos (by omega) (Nat.two_pow_pos _)
    have hle : 1 * unitsPerOne ≤ m * 2 ^ (j - 1074) * unitsPerOne := Nat.mul_le_mul_right _ hquotient
    omega
  exact keeps_of_roundUnits _ hmultiple hlarge (roundUnits_sub_half hnarrow hfull hj)

/-- So do doubles below zero. -/
theorem keeps_of_neg (hnarrow : m < 2 ^ 53) (hnormal : j = 0 ∨ 2 ^ 52 ≤ m) :
    Keeps (-(m * 2 ^ j : Nat)) ∨ Overshot (-(m * 2 ^ j : Nat)) := by
  rcases lt_trichotomy j 1074 with hfraction | rfl | hmultiple
  · exact .inl (keeps_neg_of_fraction hnarrow hfraction)
  · rw [← unitsPerOne_eq_two_pow]
    exact keeps_neg_of_whole hnarrow (by omega)
  · exact .inl (keeps_neg_of_multiple hnarrow (by omega) hmultiple)

end

/-- The doubles that are named are rounded to the next whole number. -/
theorem halfUp_of_overshot {i : ℤ} (h : Overshot i) : halfUp i = (i + half) / unitsPerOne + 1 := by
  have hsplit := unitsPerOne_eq_half
  have hpos := half_pos
  rcases h with rfl | ⟨n, rfl, hodd, hlow, hhigh⟩
  · decide +kernel
  rw [add_half_ediv]
  rcases lt_or_ge n 0 with hneg | hnonneg
  · obtain ⟨m, rfl⟩ : ∃ m : Nat, n = -(m + 1 : Nat) := ⟨(-n - 1).toNat, by omega⟩
    rw [abs_neg, abs_of_nonneg (by omega)] at hlow hhigh
    have hround := roundUnits_half (n := m) (by omega) (by omega)
    have heven : m + m % 2 = m := by omega
    have hsum : (m + 1) * unitsPerOne - half = m * unitsPerOne + half := by
      rw [Nat.succ_mul]
      omega
    have hlarge : half < (m + 1) * unitsPerOne := by
      rw [Nat.succ_mul]
      omega
    rw [heven] at hround
    rw [Int.neg_mul, ← Nat.cast_mul, halfUp_neg hlarge, hsum, hround, Nat.cast_mul, ← Int.neg_mul,
      mul_unitsPerOne_ediv]
    omega
  · obtain ⟨m, rfl⟩ : ∃ m : Nat, n = m := ⟨n.toNat, by omega⟩
    rw [abs_of_nonneg (by omega)] at hlow hhigh
    have hround := roundUnits_half (n := m) (by omega) (by omega)
    have hnext : m + m % 2 = m + 1 := by omega
    rw [hnext] at hround
    rw [← Nat.cast_mul, halfUp_natCast, hround, Nat.cast_mul, mul_unitsPerOne_ediv, Nat.cast_add, Nat.cast_one]

end MiniScheme.Binary64
