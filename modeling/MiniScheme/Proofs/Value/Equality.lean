import MiniScheme.Proofs.Value.Correspondence
import MiniScheme.Proofs.Value.Nesting
import MiniScheme.Proofs.Value.Sameness

/-!
# Equality inside lists

Lists are compared at the first place where they differ. The elements are tested for equality by what they are: numbers
and booleans by their magnitudes, lists element by element. The nesting limit may cut the test short, and an identity
may decide it early, which makes every value equal to itself. But where one identity is for one list, and there is no
NaN, whatever answer there is does not depend on that.

* `Value.NoNaN`, `Value.Orderly` — values without NaN, and collections of them in which an identity is for one list.
* `Value.Equal` — equality as a relation, without limit and identities.
* `equal?_self`, `equal?_symm`, `equal?_congr` — the test as an equivalence, under any one limit.
* `equal_of_equal?`, `Equal.equal?_ne` — what its answers mean.
-/

namespace MiniScheme.Value

open List (Forall₂)

/-! ## Values -/

/-- No NaN occurs in the value, however deep. -/
inductive NoNaN : Value → Prop where
  | plain {v : Value} (hplain : v.isPlain = true) (hnumber : ∀ x, v = .number x → x.isNaN = false) : NoNaN v
  | list (i : Nat) {items : List Value} (hitems : ∀ v ∈ items, NoNaN v) : NoNaN (.list i items)
  | closure (i : Nat) (l : Lambda) (f : FrameId) : NoNaN (.closure i l f)

/-- Values without NaN, with all that is in their lists. Each identity among them is for one list. -/
structure Orderly (among : Value → Prop) : Prop where
  item : ∀ {i : Nat} {items : List Value} {v : Value}, among (.list i items) → v ∈ items → among v
  items_eq : ∀ {i : Nat} {as bs : List Value}, among (.list i as) → among (.list i bs) → as = bs
  noNaN : ∀ {v : Value}, among v → v.NoNaN

/-- Equality of values: numbers and booleans by their magnitudes, strings by their characters, lists element by element,
all else by identity. -/
inductive Equal : Value → Value → Prop where
  | magnitude {a b : Value} {x y : Float} (ha : a.magnitude? = some x) (hb : b.magnitude? = some y)
    (h : (x == y) = true) : Equal a b
  | string (s : String) : Equal (.string s) (.string s)
  | undefined : Equal .undefined .undefined
  | null : Equal .null .null
  | primitive (p : Primitive) : Equal (.primitive p) (.primitive p)
  | closure (i : Nat) (l m : Lambda) (f g : FrameId) : Equal (.closure i l f) (.closure i m g)
  | list (i j : Nat) {as bs : List Value} (h : Forall₂ Equal as bs) : Equal (.list i as) (.list j bs)

variable {a b c : Value} {x y : Float} {as bs cs : List Value} {i j n : Nat}

theorem forall₂_imp_of_mem {R S : Value → Value → Prop} (h : Forall₂ R as bs)
    (himp : ∀ a ∈ as, ∀ b ∈ bs, R a b → S a b) : Forall₂ S as bs := by
  obtain ⟨hlength, hzip⟩ := List.forall₂_iff_zip.1 h
  refine List.forall₂_iff_zip.2 ⟨hlength, fun hp => ?_⟩
  obtain ⟨ha, hb⟩ := List.of_mem_zip hp
  exact himp _ ha _ hb (hzip hp)

theorem NoNaN.item (h : (Value.list i as).NoNaN) (ha : a ∈ as) : a.NoNaN := by
  cases h with
  | plain hplain => cases hplain
  | list _ hitems => exact hitems a ha

theorem NoNaN.beq_self (h : a.NoNaN) (ha : a.magnitude? = some x) : (x == x) = true := by
  cases h with
  | plain _ hnumber =>
    cases a with
    | number y =>
      cases ha
      simpa [Number.isNaN] using hnumber y rfl
    | boolean b =>
      cases ha
      cases b <;> decide
    | _ => cases ha
  | _ => cases ha

/-! ## Values that are not both lists -/

theorem equalAtoms_of_magnitude (ha : a.magnitude? = some x) (hb : b.magnitude? = some y) :
    equalAtoms a b = (x == y) := by
  rw [equalAtoms, ha, hb]

theorem equalAtoms_of_left (ha : a.magnitude? = none) : equalAtoms a b = a.same b := by
  rw [equalAtoms, ha]

theorem equalAtoms_of_right (hb : b.magnitude? = none) : equalAtoms a b = a.same b := by
  rw [equalAtoms, hb]
  cases a.magnitude? <;> rfl

/-- What counts as a number is the same as nothing else. -/
theorem same_of_magnitude (ha : a.magnitude? = some x) (hb : b.magnitude? = none) : a.same b = false := by
  cases a <;> cases ha <;> cases b <;> first | rfl | cases hb

theorem same_congr (h : a.same b = true) (c : Value) : a.same c = b.same c := by
  have h' : b.same a = true := (same_symm b a).trans h
  exact Bool.eq_iff_iff.2 ⟨same_trans h', same_trans h⟩

theorem equalAtoms_symm (a b : Value) : equalAtoms a b = equalAtoms b a := by
  cases ha : a.magnitude? with
  | none => rw [equalAtoms_of_left ha, equalAtoms_of_right ha, same_symm]
  | some x =>
    cases hb : b.magnitude? with
    | none => rw [equalAtoms_of_right hb, equalAtoms_of_left hb, same_symm]
    | some y => rw [equalAtoms_of_magnitude ha hb, equalAtoms_of_magnitude hb ha, BEq.comm]

theorem equalAtoms_congr (h : equalAtoms a b = true) (c : Value) : equalAtoms a c = equalAtoms b c := by
  cases ha : a.magnitude? with
  | none =>
    cases hb : b.magnitude? with
    | none =>
      rw [equalAtoms_of_left ha] at h
      rw [equalAtoms_of_left ha, equalAtoms_of_left hb, same_congr h]
    | some y =>
      rw [equalAtoms_of_left ha, same_symm, same_of_magnitude hb ha] at h
      cases h
  | some x =>
    cases hb : b.magnitude? with
    | none =>
      rw [equalAtoms_of_right hb, same_of_magnitude ha hb] at h
      cases h
    | some y =>
      rw [equalAtoms_of_magnitude ha hb] at h
      cases hc : c.magnitude? with
      | none =>
        rw [equalAtoms_of_right hc, equalAtoms_of_right hc, same_of_magnitude ha hc, same_of_magnitude hb hc]
      | some z => rw [equalAtoms_of_magnitude ha hc, equalAtoms_of_magnitude hb hc, BEq.congr_left h]

theorem equalAtoms_self (h : a.NoNaN) : equalAtoms a a = true := by
  cases ha : a.magnitude? with
  | none =>
    rw [equalAtoms_of_left ha, same_self_iff]
    rintro y rfl
    cases ha
  | some x => rw [equalAtoms_of_magnitude ha ha, h.beq_self ha]

/-- Without NaN no two values are one NaN. -/
theorem NoNaN.sameNaN (h : a.NoNaN) (b : Value) : a.sameNaN b = false := by
  cases h with
  | plain hplain hnumber =>
    cases b with
    | number y =>
      cases y with
      | nan i => exact sameNaN_of_isPlain hplain i
      | plain y =>
        cases a with
        | number x =>
          cases x with
          | plain x => exact (congrArg (· && y.isNaN) (hnumber _ rfl) :)
          | nan => rfl
        | _ => rfl
    | _ => cases a <;> rfl
  | _ => rfl

/-- A number is the same NaN as itself or equal to itself. -/
theorem number_self (x : Number) : ((number x).sameNaN (number x) || equalAtoms (number x) (number x)) = true := by
  rw [equalAtoms_of_magnitude rfl rfl]
  cases x with
  | nan i => simp [Value.sameNaN, Number.sameNaN]
  | plain x =>
    have hself : (x == x) = true ↔ x.isNaN = false := by simp
    rw [Value.sameNaN, Number.sameNaN, Number.toFloat_plain]
    cases hx : x.isNaN with
    | true => rfl
    | false => exact hself.2 hx

/-- A list is equal to no value that is not one. -/
theorem equal?_list_other (hb : ∀ j bs, b ≠ .list j bs) : equal? n (.list i as) b = some false := by
  rw [equal?_atoms fun _ _ j bs h => hb j bs h.2, equalAtoms_of_left rfl]
  cases b with
  | list j bs => exact absurd rfl (hb j bs)
  | _ => rfl

/-! ## The test -/

theorem allEqual?_symm {equal? : Value → Value → Option Bool} (h : ∀ a ∈ as, ∀ b, equal? a b = equal? b a) :
    allEqual? equal? as bs = allEqual? equal? bs as := by
  induction as generalizing bs with
  | nil => cases bs <;> rfl
  | cons a as ih =>
    cases bs with
    | nil => rfl
    | cons b bs =>
      unfold allEqual?
      rw [h a List.mem_cons_self b, ih fun a ha => h a (List.mem_cons_of_mem _ ha)]

/-- **The test for equality is symmetric**, also where the limit cuts it short. -/
theorem equal?_symm (n : Nat) (a b : Value) : equal? n a b = equal? n b a := by
  induction n generalizing a b with
  | zero =>
    rcases lists_or_not a b with ⟨i, as, j, bs, rfl, rfl⟩ | hl
    · rw [equal?_lists, equal?_lists]
      simp only [eq_comm]
    · rw [equal?_atoms hl, equal?_atoms fun j bs i as h => hl i as j bs h.symm, sameNaN_comm, equalAtoms_symm]
  | succ n ih =>
    rcases lists_or_not a b with ⟨i, as, j, bs, rfl, rfl⟩ | hl
    · rw [equal?_lists, equal?_lists]
      simp only [allEqual?_symm fun a _ b => ih a b, @eq_comm _ i, @eq_comm _ as.length]
    · rw [equal?_atoms hl, equal?_atoms fun j bs i as h => hl i as j bs h.symm, sameNaN_comm, equalAtoms_symm]

/-- **Inside lists every value is equal to itself**, also NaN. -/
theorem equal?_self (a : Value) (n : Nat) : equal? n a a = some true := by
  cases a with
  | list i items => rw [equal?_lists, if_pos rfl]
  | number x => rw [equal?_atoms (by rintro i as j bs ⟨⟨⟩, -⟩), number_self]
  | closure i l f => rw [equal?_atoms (by rintro i as j bs ⟨⟨⟩, -⟩), equalAtoms_self (.closure i l f), Bool.or_true]
  | _ =>
    rw [equal?_atoms (by rintro i as j bs ⟨⟨⟩, -⟩), equalAtoms_self (.plain rfl (by rintro x ⟨⟩)), Bool.or_true]

theorem allEqual?_eq_some_true {equal? : Value → Value → Option Bool} (hlength : as.length = bs.length) :
    allEqual? equal? as bs = some true ↔ Forall₂ (fun a b => equal? a b = some true) as bs := by
  induction as generalizing bs with
  | nil =>
    cases bs with
    | nil => simp [allEqual?]
    | cons b bs => cases hlength
  | cons a as ih =>
    cases bs with
    | nil => cases hlength
    | cons b bs =>
      rw [List.forall₂_cons, ← ih (Nat.succ.inj hlength), allEqual?]
      cases hab : equal? a b with
      | none => simp
      | some r => cases r <;> simp

/-- The test on lists, identities aside. -/
def equalItems? (n : Nat) (as bs : List Value) : Option Bool :=
  if as.length = bs.length then allEqual? (equal? n) as bs else some false

theorem equalItems?_eq_some_true :
    equalItems? n as bs = some true ↔ Forall₂ (fun a b => equal? n a b = some true) as bs := by
  unfold equalItems?
  split
  · next hlength => exact allEqual?_eq_some_true hlength
  · next hlength => exact ⟨nofun, fun h => absurd h.length_eq hlength⟩

theorem equalItems?_congr (hab : Forall₂ (fun a b => equal? n a b = some true) as bs)
    (h : ∀ a ∈ as, ∀ b ∈ bs, ∀ c ∈ cs, equal? n a b = some true → equal? n a c = equal? n b c) :
    equalItems? n as cs = equalItems? n bs cs := by
  have hall : allEqual? (equal? n) as cs = allEqual? (equal? n) bs cs := by
    induction hab generalizing cs with
    | nil => rfl
    | cons hab _ ih =>
      cases cs with
      | nil => rfl
      | cons c cs =>
        unfold allEqual?
        rw [h _ List.mem_cons_self _ List.mem_cons_self c List.mem_cons_self hab, ih fun a ha b hb c hc =>
          h a (List.mem_cons_of_mem _ ha) b (List.mem_cons_of_mem _ hb) c (List.mem_cons_of_mem _ hc)]
  rw [equalItems?, equalItems?, hab.length_eq, hall]

/-- Two equal values are both lists or neither is one. -/
theorem lists_of_equal? (h : equal? n a b = some true) :
    (∃ i as j bs, a = .list i as ∧ b = .list j bs) ∨ (∀ i as, a ≠ .list i as) ∧ ∀ j bs, b ≠ .list j bs := by
  rcases lists_or_not a b with hlists | hl
  · exact .inl hlists
  · refine .inr ⟨?_, ?_⟩
    · rintro i as rfl
      rw [equal?_list_other fun j bs hb => hl i as j bs ⟨rfl, hb⟩] at h
      cases h
    · rintro j bs rfl
      rw [equal?_symm, equal?_list_other fun i as ha => hl i as j bs ⟨ha, rfl⟩] at h
      cases h

theorem equal?_of_not_list (ha : ∀ i as, a ≠ .list i as) :
    equal? n a b = some (a.sameNaN b || equalAtoms a b) :=
  equal?_atoms (fun i as _ _ h => ha i as h.1) n

theorem NoNaN.equal?_of_not_list (h : a.NoNaN) (ha : ∀ i as, a ≠ .list i as) :
    equal? n a b = some (equalAtoms a b) := by
  rw [Value.equal?_of_not_list ha, h.sameNaN, Bool.false_or]

namespace Orderly

variable {among : Value → Prop} (hamong : Orderly among)

include hamong

/-- Where an identity is for one list, it decides nothing that the elements would not. -/
theorem equal?_lists (ha : among (.list i as)) (hb : among (.list j bs)) (n : Nat) :
    equal? (n + 1) (.list i as) (.list j bs) = equalItems? n as bs := by
  rw [Value.equal?_lists]
  split
  · next hij =>
    subst hij
    cases hamong.items_eq ha hb
    exact (equalItems?_eq_some_true.2 (List.forall₂_same.2 fun a _ => equal?_self a n)).symm
  · rfl

/-- At the limit an identity is all that lists can have in common, and then they are one list. -/
theorem eq_of_equal?_zero (ha : among (.list i as)) (hb : among (.list j bs))
    (h : equal? 0 (.list i as) (.list j bs) = some true) : Value.list i as = .list j bs := by
  rw [Value.equal?_lists] at h
  split at h
  · next hij =>
    subst hij
    rw [hamong.items_eq ha hb]
  · cases h

/-- **Equal values are equal to the same values**, and where the limit cuts the test of one of them short, it does so
for the other. -/
theorem equal?_congr (ha : among a) (hb : among b) (hc : among c) (h : equal? n a b = some true) :
    equal? n a c = equal? n b c := by
  induction n using Nat.strong_induction_on generalizing a b c with
  | _ n ih =>
    rcases lists_of_equal? h with ⟨i, as, j, bs, rfl, rfl⟩ | ⟨hla, hlb⟩
    · rcases em (∃ k cs, c = .list k cs) with ⟨k, cs, rfl⟩ | hlc
      · cases n with
        | zero => rw [hamong.eq_of_equal?_zero ha hb h]
        | succ n =>
          rw [hamong.equal?_lists ha hb, equalItems?_eq_some_true] at h
          rw [hamong.equal?_lists ha hc, hamong.equal?_lists hb hc]
          exact equalItems?_congr h fun a hmem b hmem' c hmem'' =>
            ih n (Nat.lt_succ_self n) (hamong.item ha hmem) (hamong.item hb hmem') (hamong.item hc hmem'')
      · have hother (k : Nat) (cs : List Value) : c ≠ .list k cs := fun hc => hlc ⟨k, cs, hc⟩
        rw [equal?_list_other hother, equal?_list_other hother]
    · rw [(hamong.noNaN ha).equal?_of_not_list hla, Option.some.injEq] at h
      rw [(hamong.noNaN ha).equal?_of_not_list hla, (hamong.noNaN hb).equal?_of_not_list hlb, equalAtoms_congr h]

end Orderly

/-! ## What the answers mean -/

theorem Same.equal (h : a.Same b) (hlist : ∀ i as, a ≠ .list i as) : a.Equal b := by
  cases h with
  | undefined => exact .undefined
  | boolean b => exact .magnitude rfl rfl (by cases b <;> decide)
  | number h => exact .magnitude rfl rfl h
  | string s => exact .string s
  | null => exact .null
  | list i as => exact absurd rfl (hlist i as)
  | primitive p => exact .primitive p
  | closure i l m f g => exact .closure i l m f g

theorem equal_of_equalAtoms (h : equalAtoms a b = true) (hlist : ∀ i as, a ≠ .list i as) : a.Equal b := by
  cases ha : a.magnitude? with
  | none =>
    rw [equalAtoms_of_left ha, same_iff] at h
    exact h.equal hlist
  | some x =>
    cases hb : b.magnitude? with
    | none =>
      rw [equalAtoms_of_right hb, same_iff] at h
      exact h.equal hlist
    | some y =>
      rw [equalAtoms_of_magnitude ha hb] at h
      exact .magnitude ha hb h

/-- **Every value without NaN is equal to itself.** -/
theorem Equal.refl (h : a.NoNaN) : a.Equal a := by
  induction h with
  | @plain v hplain hnumber =>
    refine equal_of_equalAtoms (equalAtoms_self (.plain hplain hnumber)) ?_
    rintro i as rfl
    cases hplain
  | list i _ ih => exact .list i i (List.forall₂_same.2 ih)
  | closure i l f => exact .closure i l l f f

/-- **What is found equal is equal.** -/
theorem Orderly.equal_of_equal? {among : Value → Prop} (hamong : Orderly among) (ha : among a) (hb : among b)
    (h : equal? n a b = some true) : a.Equal b := by
  induction n using Nat.strong_induction_on generalizing a b with
  | _ n ih =>
    rcases lists_of_equal? h with ⟨i, as, j, bs, rfl, rfl⟩ | ⟨hla, hlb⟩
    · cases n with
      | zero =>
        rw [hamong.eq_of_equal?_zero ha hb h]
        exact .refl (hamong.noNaN hb)
      | succ n =>
        rw [hamong.equal?_lists ha hb, equalItems?_eq_some_true] at h
        exact .list i j (forall₂_imp_of_mem h fun a hmem b hmem' =>
          ih n (Nat.lt_succ_self n) (hamong.item ha hmem) (hamong.item hb hmem'))
    · rw [(hamong.noNaN ha).equal?_of_not_list hla, Option.some.injEq] at h
      exact equal_of_equalAtoms h hla

theorem allEqual?_ne {equal? : Value → Value → Option Bool} (h : Forall₂ (fun a b => equal? a b ≠ some false) as bs) :
    allEqual? equal? as bs ≠ some false := by
  induction h with
  | nil => simp [allEqual?]
  | @cons a b _ _ hab _ ih =>
    unfold allEqual?
    rcases hanswer : equal? a b with _ | _ | _
    · simp
    · exact absurd hanswer hab
    · exact ih

/-- **What is equal is not found different.** -/
theorem Equal.equal?_ne (h : a.Equal b) (n : Nat) : equal? n a b ≠ some false := by
  induction n using Nat.strong_induction_on generalizing a b with
  | _ n ih =>
    cases h with
    | @list i j as bs h =>
      rw [Value.equal?_lists]
      split
      · nofun
      · cases n with
        | zero => nofun
        | succ n =>
          simp only [if_pos h.length_eq]
          exact allEqual?_ne (h.imp fun _ _ h => ih n (Nat.lt_succ_self n) h)
    | magnitude ha hb h =>
      rw [equal?_of_not_list (by rintro i as rfl; cases ha), equalAtoms_of_magnitude ha hb, h,
        Bool.or_true]
      nofun
    | string | undefined | null | primitive | closure =>
      rw [equal?_of_not_list (by rintro i as ⟨⟩), equalAtoms_of_left rfl, same_iff.2 (by constructor),
        Bool.or_true]
      nofun

end MiniScheme.Value
