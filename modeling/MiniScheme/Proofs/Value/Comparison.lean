import MiniScheme.Proofs.Binary64.Comparison
import MiniScheme.Proofs.Value.Equality

/-!
# The order of values

`<=` orders numbers and booleans by magnitude, strings by their characters, and lists lexicographically: the first
elements that are not equal decide, and if there are none, the lengths. Nothing else is comparable, but what stands
behind the first difference need not be.

* `compareItems` — the comparison of lists by recursion on the lists.
* `compare_swap` — `>=` is `<=` with the arguments swapped.
* `Value.Precedes` — the lexicographic order, strict or not.
* `Orderly.compare_trans`, `Orderly.compare_antisymm` — the order laws, under any one nesting limit.
* `Orderly.pairwise_compare` — a chain of comparisons of neighbours compares all pairs.
-/

namespace MiniScheme.Value

open List (Forall₂)

variable {a b c : Value} {as bs cs : List Value} {i j k n : Nat} {d : Direction}

/-- The kinds of values that are compared with one another. -/
inductive Comparable : Value → Value → Prop where
  | numbers {a b : Value} {x y : Float} (ha : a.magnitude? = some x) (hb : b.magnitude? = some y) : Comparable a b
  | strings (s t : String) : Comparable (.string s) (.string t)
  | lists (i j : Nat) (as bs : List Value) : Comparable (.list i as) (.list j bs)

/-! ## Comparing lists -/

/-- The comparison of lists: the first elements that are not equal decide, else the lengths. -/
def compareItems (d : Direction) (n : Nat) : List Value → List Value → Except Obstacle Bool
  | a :: as, b :: bs =>
    match equal? n a b with
    | some true => compareItems d n as bs
    | some false => compare d n a b
    | none => .error .nestingTooDeep
  | as, bs => .ok (d.lengths as.length bs.length)

theorem lengths_succ (d : Direction) (m n : Nat) : d.lengths (m + 1) (n + 1) = d.lengths m n := by
  cases d <;> simp [Direction.lengths]

/-- **Lists are compared by their items.** -/
theorem compare_lists_succ (d : Direction) (n i j : Nat) (as bs : List Value) :
    compare d (n + 1) (.list i as) (.list j bs) = compareItems d n as bs := by
  rw [compare_lists]
  induction as generalizing bs with
  | nil => rfl
  | cons a as ih =>
    cases bs with
    | nil => rfl
    | cons b bs =>
      unfold firstDifference? compareItems
      rcases hab : equal? n a b with _ | _ | _
      · simp only [hab]
      · simp only [hab]
      · simp only [hab, ← ih, List.length_cons, lengths_succ]

/-- How values that are not both lists are compared. -/
theorem compare_atoms_eq (hl : ∀ i as j bs, ¬(a = .list i as ∧ b = .list j bs)) :
    compare d n a b =
      match a, b with
      | .string s, .string t => .ok (d.strings s t)
      | a, b =>
        match a.magnitude?, b.magnitude? with
        | some x, some y => .ok (d.floats x y)
        | _, _ => .error .incomparable := by
  rw [compare_atoms hl d n 0]
  unfold compare
  cases a <;> cases b <;> first | rfl | exact absurd ⟨rfl, rfl⟩ (hl _ _ _ _)

theorem compare_numbers {x y : Float} (ha : a.magnitude? = some x) (hb : b.magnitude? = some y) (d : Direction)
    (n : Nat) : compare d n a b = .ok (d.floats x y) := by
  rw [compare_atoms_eq (by rintro i as j bs ⟨rfl, -⟩; cases ha)]
  cases a <;> cases ha <;> simp only [hb] <;> rfl

theorem compare_strings (s t : String) (d : Direction) (n : Nat) :
    compare d n (.string s) (.string t) = .ok (d.strings s t) := by
  rw [compare_atoms_eq (by rintro i as j bs ⟨⟨⟩, -⟩)]

/-- **Only values of comparable kinds have an order.** -/
theorem comparable_of_compare {r : Bool} (h : compare d n a b = .ok r) : a.Comparable b := by
  rcases lists_or_not a b with ⟨i, as, j, bs, rfl, rfl⟩ | hl
  · exact .lists i j as bs
  · rw [compare_atoms_eq hl] at h
    split at h
    · exact .strings _ _
    · split at h
      · next ha hb => exact .numbers ha hb
      · cases h

theorem compare_of_not_comparable (h : ¬a.Comparable b) : compare d n a b = .error .incomparable := by
  rw [compare_atoms_eq (by rintro i as j bs ⟨rfl, rfl⟩; exact h (.lists i j as bs))]
  split
  · exact absurd (.strings _ _) h
  · split
    · next ha hb => exact absurd (.numbers ha hb) h
    · rfl

theorem not_comparable_of_magnitude {x : Float} (ha : a.magnitude? = some x) (hb : b.magnitude? = none) :
    ¬a.Comparable b := by
  rintro (⟨-, hb'⟩ | _ | _)
  · cases hb.symm.trans hb'
  · cases ha
  · cases ha

theorem compareItems_swap (h : ∀ a b, compare .atMost n a b = compare .atLeast n b a) (as bs : List Value) :
    compareItems .atMost n as bs = compareItems .atLeast n bs as := by
  induction as generalizing bs with
  | nil => cases bs <;> rfl
  | cons a as ih =>
    cases bs with
    | nil => rfl
    | cons b bs => rw [compareItems, compareItems, ih, h, equal?_symm]

/-- **To be at most is to be at least the other way round**, also where there is no answer. -/
theorem compare_swap (n : Nat) (a b : Value) : compare .atMost n a b = compare .atLeast n b a := by
  induction n using Nat.strong_induction_on generalizing a b with
  | _ n ih =>
    rcases lists_or_not a b with ⟨i, as, j, bs, rfl, rfl⟩ | hl
    · cases n with
      | zero => rfl
      | succ n =>
        rw [compare_lists_succ, compare_lists_succ, compareItems_swap (ih n (Nat.lt_succ_self n))]
    · rw [compare_atoms_eq hl, compare_atoms_eq fun j bs i as h => hl i as j bs h.symm]
      cases a <;> cases b <;> rfl

/-! ## Equal values -/

theorem compareItems_of_allEqual? (h : allEqual? (equal? n) as bs = none) :
    compareItems d n as bs = .error .nestingTooDeep := by
  induction as generalizing bs with
  | nil => cases h
  | cons a as ih =>
    cases bs with
    | nil => cases h
    | cons b bs =>
      unfold allEqual? at h
      unfold compareItems
      rcases hab : equal? n a b with _ | _ | _
      · rfl
      · rw [hab] at h
        cases h
      · rw [hab] at h
        exact ih h

/-- Where the limit cuts equality short, it cuts the comparison short. -/
theorem compare_of_equal?_eq_none (h : equal? n a b = none) : compare d n a b = .error .nestingTooDeep := by
  rcases lists_or_not a b with ⟨i, as, j, bs, rfl, rfl⟩ | hl
  · cases n with
    | zero => rfl
    | succ n =>
      rw [compare_lists_succ]
      rw [equal?_lists] at h
      split at h
      · cases h
      · simp only at h
        split at h
        · exact compareItems_of_allEqual? h
        · cases h
  · rw [equal?_atoms hl] at h
    cases h

theorem floats_congr {x y z : Float} (h : (x == y) = true) : d.floats x z = d.floats y z := by
  have hle := Binary64.le_of_beq h
  have hge := Binary64.le_of_beq (BEq.symm h)
  cases d with
  | atMost => exact decide_eq_decide.2 ⟨Binary64.le_trans hge, Binary64.le_trans hle⟩
  | atLeast => exact decide_eq_decide.2 ⟨fun h => Binary64.le_trans h hle, fun h => Binary64.le_trans h hge⟩

theorem compare_congr_atoms (ha : ∀ i as, a ≠ .list i as) (h : equalAtoms a b = true) :
    compare d n a c = compare d n b c := by
  cases equal_of_equalAtoms h ha with
  | magnitude ha hb hab =>
    cases hc : c.magnitude? with
    | none =>
      rw [compare_of_not_comparable (not_comparable_of_magnitude ha hc),
        compare_of_not_comparable (not_comparable_of_magnitude hb hc)]
    | some z => rw [compare_numbers ha hc, compare_numbers hb hc, floats_congr hab]
  | closure i l m f g =>
    rw [compare_of_not_comparable (by rintro (⟨⟨⟩, -⟩ | _)), compare_of_not_comparable (by rintro (⟨⟨⟩, -⟩ | _))]
  | list i j => exact absurd rfl (ha i _)
  | string | undefined | null | primitive => rfl

theorem compareItems_congr (hab : Forall₂ (fun a b => equal? n a b = some true) as bs)
    (hequal : ∀ a ∈ as, ∀ b ∈ bs, ∀ c ∈ cs, equal? n a b = some true → equal? n a c = equal? n b c)
    (hcompare : ∀ a ∈ as, ∀ b ∈ bs, ∀ c ∈ cs, equal? n a b = some true → compare d n a c = compare d n b c) :
    compareItems d n as cs = compareItems d n bs cs := by
  induction hab generalizing cs with
  | nil => rfl
  | @cons a b as bs hab hrest ih =>
    cases cs with
    | nil =>
      show Except.ok (d.lengths (as.length + 1) 0) = Except.ok (d.lengths (bs.length + 1) 0)
      rw [hrest.length_eq]
    | cons c cs =>
      have htail := ih (fun a ha b hb c hc => hequal a (.tail _ ha) b (.tail _ hb) c (.tail _ hc))
        (fun a ha b hb c hc => hcompare a (.tail _ ha) b (.tail _ hb) c (.tail _ hc))
      rw [compareItems, compareItems, htail, hequal a (.head _) b (.head _) c (.head _) hab,
        hcompare a (.head _) b (.head _) c (.head _) hab]

namespace Orderly

variable {among : Value → Prop} (hamong : Orderly among)

include hamong

/-- **Equal values are compared alike.** -/
theorem compare_congr (ha : among a) (hb : among b) (hc : among c) (h : equal? n a b = some true) :
    compare d n a c = compare d n b c := by
  induction n using Nat.strong_induction_on generalizing a b c with
  | _ n ih =>
    rcases lists_of_equal? h with ⟨i, as, j, bs, rfl, rfl⟩ | ⟨hla, hlb⟩
    · rcases em (∃ k cs, c = .list k cs) with ⟨k, cs, rfl⟩ | hlc
      · cases n with
        | zero => rfl
        | succ n =>
          rw [hamong.equal?_lists ha hb, equalItems?_eq_some_true] at h
          rw [compare_lists_succ, compare_lists_succ]
          refine compareItems_congr h (fun a hmem b hmem' c hmem'' => ?_) (fun a hmem b hmem' c hmem'' => ?_)
          · exact hamong.equal?_congr (hamong.item ha hmem) (hamong.item hb hmem') (hamong.item hc hmem'')
          · exact ih n (Nat.lt_succ_self n) (hamong.item ha hmem) (hamong.item hb hmem') (hamong.item hc hmem'')
      · have hother (i : Nat) (as : List Value) : ¬(Value.list i as).Comparable c := by
          rintro (⟨⟨⟩, -⟩ | _ | ⟨_, k, _, cs⟩)
          exact hlc ⟨k, cs, rfl⟩
        rw [compare_of_not_comparable (hother i as), compare_of_not_comparable (hother j bs)]
    · rw [(hamong.noNaN ha).equal?_of_not_list hla, Option.some.injEq] at h
      exact compare_congr_atoms hla h

end Orderly

/-! ## The lexicographic order -/

/-- The value is before the other, and not equal to it. -/
def Less (n : Nat) (a b : Value) : Prop := compare .atMost n a b = .ok true ∧ equal? n a b = some false

/-- The first elements that are not equal are in order. If there are none, the list that ends first comes first; the
strict order has it end before the other. -/
inductive Precedes (n : Nat) (strict : Bool) : List Value → List Value → Prop where
  | nil {bs : List Value} (h : strict = true → bs ≠ []) : Precedes n strict [] bs
  | equal {a b : Value} {as bs : List Value} (h : equal? n a b = some true) (hrest : Precedes n strict as bs) :
    Precedes n strict (a :: as) (b :: bs)
  | less {a b : Value} {as bs : List Value} (h : Less n a b) : Precedes n strict (a :: as) (b :: bs)

variable {strict : Bool}

theorem compareItems_eq_true : compareItems .atMost n as bs = .ok true ↔ Precedes n false as bs := by
  induction as generalizing bs with
  | nil =>
    have htrue : compareItems .atMost n [] bs = .ok true := by
      cases bs <;> simp [compareItems, Direction.lengths]
    exact iff_of_true htrue (.nil nofun)
  | cons a as ih =>
    cases bs with
    | nil =>
      refine iff_of_false ?_ nofun
      simp [compareItems, Direction.lengths]
    | cons b bs =>
      unfold compareItems
      constructor
      · intro h
        split at h
        · next hab => exact .equal hab (ih.1 h)
        · next hab => exact .less ⟨h, hab⟩
        · cases h
      · rintro (_ | ⟨hab, hrest⟩ | hless)
        · rw [hab]
          exact ih.2 hrest
        · rw [hless.2]
          exact hless.1

/-- Lists of which the first is before the second and that are not equal are in the strict order. -/
theorem Precedes.strengthen (h : Precedes n false as bs) (hne : equalItems? n as bs ≠ some true) :
    Precedes n true as bs := by
  rw [Ne, equalItems?_eq_some_true] at hne
  induction h with
  | nil =>
    refine .nil fun _ => ?_
    rintro rfl
    exact hne .nil
  | equal hab _ ih => exact .equal hab (ih fun hrest => hne (.cons hab hrest))
  | less hless => exact .less hless

/-- Lists in the strict order are found not to be equal. -/
theorem Precedes.equalItems? (h : Precedes n true as bs) : equalItems? n as bs = some false := by
  unfold Value.equalItems?
  split
  · next hlength =>
    induction h with
    | nil hne =>
      exact absurd (List.eq_nil_of_length_eq_zero hlength.symm) (hne rfl)
    | equal hab _ ih =>
      unfold allEqual?
      rw [hab]
      exact ih (Nat.succ.inj hlength)
    | less hless =>
      unfold allEqual?
      rw [hless.2]
  · rfl

theorem Precedes.weaken (h : Precedes n true as bs) : Precedes n false as bs := by
  induction h with
  | nil => exact .nil nofun
  | equal hab _ ih => exact .equal hab ih
  | less hless => exact .less hless

/-- Lists that are before one another have equal items. -/
theorem Precedes.forall₂ (h : Precedes n false as bs)
    (hless : ∀ a ∈ as, ∀ b ∈ bs, Less n a b → ¬compare .atMost n b a = .ok true) (h' : Precedes n false bs as) :
    Forall₂ (fun a b => equal? n a b = some true) as bs := by
  induction h with
  | nil =>
    cases h' with
    | nil => exact .nil
  | @equal a b as bs hab hrest ih =>
    cases h' with
    | equal _ hrest' => exact .cons hab (ih (fun a ha b hb => hless a (.tail _ ha) b (.tail _ hb)) hrest')
    | less hba =>
      have hne := hba.2
      rw [equal?_symm, hab] at hne
      cases hne
  | @less a b as bs hab =>
    cases h' with
    | equal hba =>
      have hne := hab.2
      rw [equal?_symm, hba] at hne
      cases hne
    | less hba => exact absurd hba.1 (hless a (.head _) b (.head _) hab)

/-- What is at most another value is equal to it or less. -/
theorem equal_or_less (h : compare .atMost n a b = .ok true) : equal? n a b = some true ∨ Less n a b := by
  rcases hequal : equal? n a b with _ | _ | _
  · rw [compare_of_equal?_eq_none hequal] at h
    cases h
  · exact .inr ⟨h, hequal⟩
  · exact .inl rfl

theorem compare_trans_atoms (hl : ∀ i as j bs, ¬(a = .list i as ∧ b = .list j bs))
    (h : compare .atMost n a b = .ok true) (h' : compare .atMost n b c = .ok true) :
    compare .atMost n a c = .ok true := by
  cases comparable_of_compare h with
  | @numbers _ _ x y hx hy =>
    cases comparable_of_compare h' with
    | @numbers _ _ y' z hy' hz =>
      cases hy.symm.trans hy'
      rw [compare_numbers hx hy, Except.ok.injEq] at h
      rw [compare_numbers hy hz, Except.ok.injEq] at h'
      rw [compare_numbers hx hz]
      exact congrArg _ (decide_eq_true (Binary64.le_trans (of_decide_eq_true h) (of_decide_eq_true h')))
    | strings => cases hy
    | lists => cases hy
  | strings t u =>
    cases comparable_of_compare h' with
    | numbers hy => cases hy
    | strings _ w =>
      rw [compare_strings, Except.ok.injEq] at h h'
      rw [compare_strings]
      exact congrArg _ (decide_eq_true (String.le_trans (of_decide_eq_true h) (of_decide_eq_true h')))
  | lists i j as bs => exact absurd ⟨rfl, rfl⟩ (hl i as j bs)

theorem Comparable.self_right (h : a.Comparable b) : b.Comparable b := by
  cases h with
  | numbers _ hb => exact .numbers hb hb
  | strings _ t => exact .strings t t
  | lists _ j _ bs => exact .lists j j bs bs

theorem compareItems_self (d : Direction) (n : Nat) (as : List Value) : compareItems d n as as = .ok true := by
  induction as with
  | nil => cases d <;> rfl
  | cons a as ih =>
    unfold compareItems
    rw [equal?_self]
    exact ih

/-- Two lists of one NaN are in order, two lists of two NaN are not. -/
example : compare .atMost 1 (.list 0 [.number (.nan 2)]) (.list 1 [.number (.nan 2)]) = .ok true ∧
    compare .atMost 1 (.list 0 [.number (.nan 2)]) (.list 1 [.number (.nan 3)]) = .ok false := ⟨rfl, rfl⟩

/-- A value is at most, and at least, itself. -/
theorem compare_self (h : a.NoNaN) (hkind : a.Comparable a) (hlimit : compare .atMost n a a ≠ .error .nestingTooDeep)
    (d : Direction) : compare d n a a = .ok true := by
  cases hkind with
  | @numbers _ _ x y hx hy =>
    have hle : x ≤ x := Binary64.le_of_beq (h.beq_self hx)
    rw [compare_numbers hx hx]
    cases d <;> exact congrArg _ (decide_eq_true hle)
  | strings t =>
    rw [compare_strings]
    cases d <;> exact congrArg _ (decide_eq_true (String.le_refl t))
  | lists i _ items =>
    cases n with
    | zero => exact absurd rfl hlimit
    | succ n =>
      rw [compare_lists_succ]
      exact compareItems_self d n items

namespace Orderly

variable {among : Value → Prop} (hamong : Orderly among)

include hamong

theorem less_of_equal_left (ha : among a) (hb : among b) (hc : among c) (h : equal? n a b = some true)
    (h' : Less n b c) : Less n a c :=
  ⟨(hamong.compare_congr ha hb hc h).trans h'.1, (hamong.equal?_congr ha hb hc h).trans h'.2⟩

theorem less_of_equal_right (ha : among a) (hb : among b) (hc : among c) (h : Less n a b)
    (h' : equal? n b c = some true) : Less n a c := by
  rw [equal?_symm] at h'
  refine ⟨?_, ?_⟩
  · rw [compare_swap, hamong.compare_congr hc hb ha h', ← compare_swap]
    exact h.1
  · rw [equal?_symm, hamong.equal?_congr hc hb ha h', equal?_symm]
    exact h.2

theorem less_lists_iff (ha : among (.list i as)) (hb : among (.list j bs)) :
    Less (n + 1) (.list i as) (.list j bs) ↔ Precedes n true as bs := by
  rw [Less, compare_lists_succ, hamong.equal?_lists ha hb, compareItems_eq_true]
  refine ⟨fun ⟨hle, hne⟩ => hle.strengthen (by rw [hne]; nofun), fun h => ⟨h.weaken, h.equalItems?⟩⟩

/-- Where the first two differences lie decides which step is taken from the elements. -/
theorem precedes_trans
    (hless : ∀ {a b c}, among a → among b → among c → Less n a b → Less n b c → Less n a c)
    (has : ∀ a ∈ as, among a) (hbs : ∀ b ∈ bs, among b) (hcs : ∀ c ∈ cs, among c) (h : Precedes n strict as bs)
    (h' : Precedes n strict bs cs) : Precedes n strict as cs := by
  induction h generalizing cs with
  | nil hne =>
    refine .nil fun hstrict => ?_
    rintro rfl
    cases h' with
    | nil => exact hne hstrict rfl
  | @equal a b as bs hab hrest ih =>
    cases h' with
    | @equal _ c _ cs hbc hrest' =>
      have hac := (hamong.equal?_congr (has a (.head _)) (hbs b (.head _)) (hcs c (.head _)) hab).trans hbc
      exact .equal hac (ih (fun a ha => has a (.tail _ ha)) (fun b hb => hbs b (.tail _ hb))
        (fun c hc => hcs c (.tail _ hc)) hrest')
    | @less _ c _ cs hbc =>
      exact .less (hamong.less_of_equal_left (has a (.head _)) (hbs b (.head _)) (hcs c (.head _)) hab hbc)
  | @less a b as bs hab =>
    cases h' with
    | @equal _ c _ cs hbc =>
      exact .less (hamong.less_of_equal_right (has a (.head _)) (hbs b (.head _)) (hcs c (.head _)) hab hbc)
    | @less _ c _ cs hbc => exact .less (hless (has a (.head _)) (hbs b (.head _)) (hcs c (.head _)) hab hbc)

/-- **Values that are at most one another are equal.** -/
theorem compare_antisymm (ha : among a) (hb : among b) (h : compare .atMost n a b = .ok true)
    (h' : compare .atMost n b a = .ok true) : equal? n a b = some true := by
  induction n using Nat.strong_induction_on generalizing a b with
  | _ n ih =>
    cases comparable_of_compare h with
    | @numbers _ _ x y hx hy =>
      rw [compare_numbers hx hy, Except.ok.injEq] at h
      rw [compare_numbers hy hx, Except.ok.injEq] at h'
      rw [equal?_of_not_list (by rintro i as rfl; cases hx), equalAtoms_of_magnitude hx hy,
        Binary64.beq_of_le_of_le (of_decide_eq_true h) (of_decide_eq_true h'), Bool.or_true]
    | strings t u =>
      rw [compare_strings, Except.ok.injEq] at h h'
      rw [String.le_antisymm (of_decide_eq_true h) (of_decide_eq_true h'), equal?_self]
    | lists i j as bs =>
      cases n with
      | zero => cases h
      | succ n =>
        rw [compare_lists_succ, compareItems_eq_true] at h h'
        rw [hamong.equal?_lists ha hb, equalItems?_eq_some_true]
        refine h.forall₂ (fun a hmem b hmem' hless hle => ?_) h'
        have hequal := ih n (Nat.lt_succ_self n) (hamong.item ha hmem) (hamong.item hb hmem') hless.1 hle
        rw [hless.2] at hequal
        cases hequal

/-- What is less than a value is not equal to what that is at most. -/
theorem less_of_compare (ha : among a) (hb : among b) (hc : among c) (h : Less n a b)
    (h' : compare .atMost n b c = .ok true) (hac : compare .atMost n a c = .ok true) : Less n a c := by
  refine (equal_or_less hac).resolve_left fun hequal => ?_
  -- were the outer two equal, the middle one would be at most the first
  have hba : compare .atMost n b a = .ok true := by
    rw [compare_swap, hamong.compare_congr ha hc hb hequal, ← compare_swap]
    exact h'
  have hab := hamong.compare_antisymm ha hb h.1 hba
  rw [h.2] at hab
  cases hab

theorem less_trans (ha : among a) (hb : among b) (hc : among c) (h : Less n a b) (h' : Less n b c) : Less n a c := by
  induction n using Nat.strong_induction_on generalizing a b c with
  | _ n ih =>
    rcases lists_or_not a b with ⟨i, as, j, bs, rfl, rfl⟩ | hl
    · cases comparable_of_compare h'.1 with
      | numbers hy => cases hy
      | lists _ k _ cs =>
        cases n with
        | zero => cases h.1
        | succ n =>
          -- the elements are compared one level further down, where the order is transitive by induction
          rw [hamong.less_lists_iff ha hb] at h
          rw [hamong.less_lists_iff hb hc] at h'
          rw [hamong.less_lists_iff ha hc]
          exact hamong.precedes_trans (ih n (Nat.lt_succ_self n)) (fun _ => hamong.item ha) (fun _ => hamong.item hb)
            (fun _ => hamong.item hc) h h'
    · exact hamong.less_of_compare ha hb hc h h'.1 (compare_trans_atoms hl h.1 h'.1)

/-- **The order is transitive**: values that are compared with one between them are comparable themselves, under the
same limit. -/
theorem compare_trans (ha : among a) (hb : among b) (hc : among c) (h : compare .atMost n a b = .ok true)
    (h' : compare .atMost n b c = .ok true) : compare .atMost n a c = .ok true := by
  rcases equal_or_less h with hab | hab
  · rw [hamong.compare_congr ha hb hc hab]
    exact h'
  · rcases equal_or_less h' with hbc | hbc
    · exact (hamong.less_of_equal_right ha hb hc hab hbc).1
    · exact (hamong.less_trans ha hb hc hab hbc).1

/-- **Values are at most one another exactly if they are of comparable kinds and equal.** -/
theorem compare_both_iff (ha : among a) (hb : among b) (hlimit : compare .atMost n a b ≠ .error .nestingTooDeep) :
    compare .atMost n a b = .ok true ∧ compare .atMost n b a = .ok true ↔ a.Comparable b ∧ a.Equal b := by
  constructor
  · rintro ⟨h, h'⟩
    exact ⟨comparable_of_compare h, hamong.equal_of_equal? ha hb (hamong.compare_antisymm ha hb h h')⟩
  · rintro ⟨hkind, hequal⟩
    have htrue : equal? n a b = some true := by
      rcases h : equal? n a b with _ | _ | _
      · exact absurd (compare_of_equal?_eq_none h) hlimit
      · exact absurd h (hequal.equal?_ne n)
      · rfl
    have hcongr (d : Direction) : compare d n a b = compare d n b b := hamong.compare_congr ha hb hb htrue
    rw [hcongr] at hlimit
    have hself := compare_self (hamong.noNaN hb) hkind.self_right hlimit
    rw [compare_swap n b a, hcongr, hcongr]
    exact ⟨hself .atMost, hself .atLeast⟩

end Orderly

/-! ## Chains of comparisons -/

/-- A chain of comparisons is true if the test is passed by all neighbours. -/
theorem pairwise_eq_true {test : Value → Value → Except Obstacle Bool} {vs : List Value} :
    pairwise test vs = .ok true ↔ vs.IsChain fun a b => test a b = .ok true := by
  induction vs with
  | nil => simp [pairwise]
  | cons a rest ih =>
    cases rest with
    | nil => simp [pairwise]
    | cons b rest =>
      rw [List.isChain_cons_cons, ← ih, pairwise.eq_def]
      dsimp only
      split
      · next hab => exact (and_iff_right hab).symm
      · next hab => exact iff_of_false (fun h => hab h) fun h => hab h.1

/-- **Neighbours are in order exactly if all are.** -/
theorem Orderly.pairwise_compare {among : Value → Prop} (hamong : Orderly among) {vs : List Value}
    (hvs : ∀ v ∈ vs, among v) :
    pairwise (compare .atMost n) vs = .ok true ↔ vs.Pairwise fun a b => compare .atMost n a b = .ok true := by
  have : IsTrans Value fun a b => a ∈ vs ∧ b ∈ vs ∧ compare .atMost n a b = .ok true :=
    ⟨fun a b c ⟨ha, hb, hab⟩ ⟨_, hc, hbc⟩ =>
      ⟨ha, hc, hamong.compare_trans (hvs a ha) (hvs b hb) (hvs c hc) hab hbc⟩⟩
  rw [pairwise_eq_true, List.IsChain.iff_mem, List.isChain_iff_pairwise, ← List.Pairwise.and_mem]

end MiniScheme.Value
