import Mathlib
import MiniScheme.Value.Order
import MiniScheme.Value.Printed

/-!
# Sameness of values

`equal?` decides booleans, numbers and strings by what they are, lists and procedures by their identities. That is
symmetric and transitive, and only NaN is not the same as itself, so `=` may compare neighbours instead of all pairs.

* `Value.Same` — which values are the same, kind by kind.
* `Value.same_symm`, `Value.same_trans`, `Value.same_self_iff` — sameness as a relation.
* `Value.pairwise_same` — neighbours are the same exactly if all values are.
* `Value.Same.printed?_eq` — what is the same is printed alike, if lists of one identity are one list.
-/

namespace MiniScheme

/-! ## Numbers -/

namespace Numeral.Notation

/-- Both zeros have the same text in a style without negative zero. -/
theorem write_neg_zero {style : Notation} (hstyle : style.signedZero = false) : style.write (-0) = style.write 0 := by
  have hpositive : Binary64.parts 0 = .finite false 0 := rfl
  have hnegative : Binary64.parts (-0) = .finite true 0 := rfl
  unfold write
  rw [hpositive, hnegative, hstyle]
  rfl

/-- **Equal numbers have the same text** in a style without negative zero. -/
theorem write_eq_of_beq {style : Notation} (hstyle : style.signedZero = false) {x y : Float} (h : (x == y) = true) :
    style.write x = style.write y := by
  obtain ⟨-, -, rfl | ⟨rfl, rfl⟩ | ⟨rfl, rfl⟩⟩ := Float.beq_iff_ne_nan_and_eq.1 h
  · rfl
  · exact (write_neg_zero hstyle).symm
  · exact write_neg_zero hstyle

end Numeral.Notation

namespace Value

/-! ## Kinds -/

/-- Two values are the same. -/
inductive Same : Value → Value → Prop where
  | undefined : Same .undefined .undefined
  | boolean (b : Bool) : Same (.boolean b) (.boolean b)
  | number {x y : Number} (h : (x.toFloat == y.toFloat) = true) : Same (.number x) (.number y)
  | string (s : String) : Same (.string s) (.string s)
  | null : Same .null .null
  | list (i : Nat) (as bs : List Value) : Same (.list i as) (.list i bs)
  | primitive (p : Primitive) : Same (.primitive p) (.primitive p)
  | closure (i : Nat) (l m : Lambda) (f g : FrameId) : Same (.closure i l f) (.closure i m g)

variable {a b c : Value}

theorem same_iff : a.same b = true ↔ a.Same b := by
  constructor
  · intro h
    unfold same at h
    split at h
    · exact .undefined
    · cases eq_of_beq h
      exact .boolean _
    · exact .number h
    · cases eq_of_beq h
      exact .string _
    · exact .null
    · cases eq_of_beq h
      exact .list _ _ _
    · cases eq_of_beq h
      exact .primitive _
    · cases eq_of_beq h
      exact .closure _ _ _ _ _
    · cases h
  · rintro (_ | _ | h | _ | _ | _ | _ | _)
    case number => exact h
    all_goals simp [same]

/-! ## Sameness as a relation -/

theorem Same.symm (h : a.Same b) : b.Same a := by
  cases h with
  | undefined => exact .undefined
  | boolean => exact .boolean _
  | number h => exact .number (BEq.symm h)
  | string => exact .string _
  | null => exact .null
  | list => exact .list _ _ _
  | primitive => exact .primitive _
  | closure => exact .closure _ _ _ _ _

theorem Same.trans (h : a.Same b) (h' : b.Same c) : a.Same c := by
  cases h with
  | undefined | boolean | string | null | primitive => exact h'
  | number h =>
    cases h' with
    | number h' => exact .number (BEq.trans h h')
  | list =>
    cases h'
    exact .list _ _ _
  | closure =>
    cases h'
    exact .closure _ _ _ _ _

/-- **Sameness is symmetric.** -/
theorem same_symm (a b : Value) : a.same b = b.same a :=
  Bool.eq_iff_iff.2 (by rw [same_iff, same_iff]; exact ⟨Same.symm, Same.symm⟩)

/-- **Sameness is transitive.** -/
theorem same_trans (h : a.same b = true) (h' : b.same c = true) : a.same c = true :=
  same_iff.2 ((same_iff.1 h).trans (same_iff.1 h'))

/-- **Every value but NaN is the same as itself.** -/
theorem same_self_iff : a.same a = true ↔ ∀ x, a = .number x → x.isNaN = false := by
  cases a with
  | number x =>
    have hself : (x.toFloat == x.toFloat) = true ↔ x.isNaN = false := by simp [Number.isNaN]
    exact hself.trans ⟨fun h _ heq => by cases heq; exact h, fun h => h x rfl⟩
  | _ => simp [same]

/-! ## Neighbours and pairs -/

/-- A test that always answers decides whether all neighbours pass it. -/
theorem pairwise_ok (test : Value → Value → Bool) (vs : List Value) :
    ∃ answer, pairwise (fun a b => .ok (test a b)) vs = .ok answer ∧
      (answer = true ↔ vs.IsChain fun a b => test a b = true) := by
  induction vs with
  | nil => exact ⟨true, rfl, by simp⟩
  | cons a rest ih =>
    cases rest with
    | nil => exact ⟨true, rfl, by simp⟩
    | cons b rest =>
      obtain ⟨answer, hrest, hiff⟩ := ih
      unfold pairwise
      cases hab : test a b with
      | true => exact ⟨answer, hrest, by simp [hiff, hab]⟩
      | false => exact ⟨false, rfl, by simp [hab]⟩

/-- **Neighbours are the same exactly if all are.** -/
theorem pairwise_same (vs : List Value) :
    ∃ answer, pairwise (fun a b => .ok (a.same b)) vs = .ok answer ∧
      (answer = true ↔ vs.Pairwise fun a b => a.same b = true) := by
  have : Trans (fun a b : Value => a.same b = true) (fun a b => a.same b = true) fun a b => a.same b = true :=
    ⟨same_trans⟩
  obtain ⟨answer, hpairwise, hiff⟩ := pairwise_ok same vs
  exact ⟨answer, hpairwise, hiff.trans List.isChain_iff_pairwise⟩

/-! ## Printing -/

/-- **What is the same is printed alike**, if lists of one identity are one list. -/
theorem Same.printed?_eq (h : a.Same b) (hlists : ∀ i as bs, a = .list i as → b = .list i bs → as = bs)
    (nesting : Nat) : a.printed? nesting = b.printed? nesting := by
  cases h with
  | list i as bs => rw [hlists i as bs rfl rfl]
  | @number x y h =>
    have htext : Numeral.printed.write x.toFloat = Numeral.printed.write y.toFloat :=
      Numeral.Notation.write_eq_of_beq rfl h
    simp only [printed?, htext]
  | closure => simp only [printed?]
  | _ => rfl

end Value
end MiniScheme
