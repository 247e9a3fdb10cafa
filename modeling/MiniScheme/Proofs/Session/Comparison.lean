import MiniScheme.Proofs.Session.Identity
import MiniScheme.Proofs.Value.Comparison

/-!
# The order that programs see

`<=` and `>=` order the values that come up in a program, NaN aside: all laws of an order hold of what the two
primitives answer, however deep the lists are nested and whatever kinds of values are mixed in them.

* `Outcome.ofComparison` — what a primitive makes of a comparison.
* `Store.Arises.orderly` — in the values that have come up, an identity is for one list.
* `order_laws` — the laws of `<=` and `>=`.
-/

namespace MiniScheme

open Eval

/-- The outcome of a comparison by a primitive. The store stays as it is. -/
def Outcome.ofComparison (p : Primitive) (s : Store) : Except Value.Obstacle Bool → Outcome Value
  | .ok answer => .done (.boolean answer) s
  | .error .incomparable => .stopped (.error (.incomparable p)) s
  | .error .nestingTooDeep => .stopped .nestingTooDeep s

/-- Both comparisons have the same answer or none for the same reason. Errors name the primitive that was called. -/
inductive Outcome.SameAnswer (s : Store) : Outcome Value → Outcome Value → Prop where
  | answer (b : Bool) : SameAnswer s (.done (.boolean b) s) (.done (.boolean b) s)
  | incomparable :
    SameAnswer s (.stopped (.error (.incomparable .atMost)) s) (.stopped (.error (.incomparable .atLeast)) s)
  | nestingTooDeep : SameAnswer s (.stopped .nestingTooDeep s) (.stopped .nestingTooDeep s)

open Outcome (ofComparison SameAnswer)

variable {fuel n : Nat} {s : Store} {vs : List Value} {a b : Value}

theorem Outcome.sameAnswer_ofComparison (result : Except Value.Obstacle Bool) :
    SameAnswer s (ofComparison .atMost s result) (ofComparison .atLeast s result) := by
  rcases result with (_ | _) | answer
  · exact .incomparable
  · exact .nestingTooDeep
  · exact .answer answer

theorem Outcome.ofComparison_eq_true {p : Primitive} {result : Except Value.Obstacle Bool} :
    ofComparison p s result = .done (.boolean true) s ↔ result = .ok true := by
  rcases result with (_ | _) | answer <;> simp [ofComparison]

theorem call_truth {p : Primitive} {result : Except Value.Obstacle Bool} (h : p.run n vs = p.truth result) (s : Store) :
    call (eval fuel) n (.primitive p) vs s = ofComparison p s result := by
  rw [call_primitive, h]
  rcases result with (_ | _) | answer <;> rfl

theorem call_atMost (vs : List Value) (s : Store) : call (eval fuel) n (.primitive .atMost) vs s =
    ofComparison .atMost s (Value.pairwise (Value.compare .atMost n) vs) := call_truth rfl s

theorem call_atLeast (vs : List Value) (s : Store) : call (eval fuel) n (.primitive .atLeast) vs s =
    ofComparison .atLeast s (Value.pairwise (Value.compare .atLeast n) vs) := call_truth rfl s

theorem Value.pairwise_pair (test : Value → Value → Except Obstacle Bool) (a b : Value) :
    pairwise test [a, b] = test a b := by
  unfold pairwise
  split
  · next h => exact h.symm
  · rfl

namespace Store.Arises

variable {made : List Value}

/-- **In the values that have come up, an identity is for one list.** -/
theorem orderly (h : s.Arises made) : Value.Orderly fun v => v.Known made ∧ v.NoNaN where
  item hlist hv := ⟨h.item hlist.1 hv, hlist.2.item hv⟩
  items_eq ha hb := h.items_eq ha.1 hb.1
  noNaN hv := hv.2

end Store.Arises

/-- **The laws of the order.** Take values without NaN that have come up in a program, and any nesting limit. `(<= a b)`
and `(>= b a)` have the same answer, or both have none for the same reason. If `a` is at most `b` and `b` is at most
`c`, then `a` is at most `c`: neither are they incomparable, nor does the limit stop this comparison. `a` and `b` are at
most one another exactly if they are of comparable kinds and equal, unless the limit stops the comparison. So `<=` is
true of many values exactly if it is of every two of them. -/
theorem order_laws {made : List Value} (h : s.Arises made) (fuel n : Nat) :
    let atMost (vs : List Value) := call (eval fuel) n (.primitive .atMost) vs s
    let atLeast (vs : List Value) := call (eval fuel) n (.primitive .atLeast) vs s
    let yes : Outcome Value := .done (.boolean true) s
    let ordinary (v : Value) := v.Known made ∧ v.NoNaN
    (∀ a b, SameAnswer s (atMost [a, b]) (atLeast [b, a])) ∧
      (∀ a b c, ordinary a → ordinary b → ordinary c → atMost [a, b] = yes → atMost [b, c] = yes →
        atMost [a, c] = yes) ∧
      (∀ a b, ordinary a → ordinary b → atMost [a, b] ≠ .stopped .nestingTooDeep s →
        (atMost [a, b] = yes ∧ atMost [b, a] = yes ↔ a.Comparable b ∧ a.Equal b)) ∧
      ∀ vs, (∀ v ∈ vs, ordinary v) → (atMost vs = yes ↔ vs.Pairwise fun a b => atMost [a, b] = yes) := by
  have hpair (a b : Value) : call (eval fuel) n (.primitive .atMost) [a, b] s =
      ofComparison .atMost s (Value.compare .atMost n a b) := by
    rw [call_atMost, Value.pairwise_pair]
  simp only [hpair, call_atMost, Outcome.ofComparison_eq_true]
  refine ⟨fun a b => ?_, fun a b c ha hb hc => h.orderly.compare_trans ha hb hc, fun a b ha hb hlimit => ?_,
    fun vs hvs => h.orderly.pairwise_compare hvs⟩
  · rw [call_atLeast, Value.pairwise_pair, ← Value.compare_swap]
    exact Outcome.sameAnswer_ofComparison _
  · refine h.orderly.compare_both_iff ha hb fun hdeep => hlimit ?_
    rw [hdeep]
    rfl

/-- The store that programs start with, after four lists were made. -/
def fourListsExample : Store := { Store.initial with fresh := 4 }

theorem order_laws_mixedLists :
    let atMost (vs : List Value) := call (eval 1) 2 (.primitive .atMost) vs fourListsExample
    let yes : Outcome Value := .done (.boolean true) fourListsExample
    let a := Value.list 0 [.boolean false, .primitive .car]
    let b := Value.list 1 [.number (0 : Float), .primitive .car, .null]
    let c := Value.list 2 [.boolean true, .string "b"]
    let d := Value.list 3 [.number (0 : Float), .primitive .car]
    ∃ made, fourListsExample.Arises made ∧ (∀ v ∈ [a, b, c, d], v.Known made ∧ v.NoNaN) ∧
      SameAnswer fourListsExample (atMost [.null, a])
        (call (eval 1) 2 (.primitive .atLeast) [a, .null] fourListsExample) ∧
      (atMost [a, b] = yes ∧ atMost [b, c] = yes ∧ atMost [a, c] = yes) ∧
      (atMost [a, d] = yes ∧ atMost [d, a] = yes ∧ a.Comparable d ∧ a.Equal d) ∧
      atMost [a, b, c] = yes ∧ [a, b, c].Pairwise fun v w => atMost [v, w] = yes := by
  intro atMost yes a b c d
  have hitems {made items : List Value} (h : ∀ v ∈ items, v.isPlain = true) : ∀ v ∈ items, v.Known made :=
    fun v hv => .inl (h v hv)
  have harises : fourListsExample.Arises [d, c, b, a] := by
    have h₁ := @Store.Arises.newList _ _ [.boolean false, .primitive .car] .initial (hitems (by simp [Value.isPlain]))
    have h₂ := @Store.Arises.newList _ _ [.number (0 : Float), .primitive .car, .null] h₁
      (hitems (by simp [Value.isPlain]))
    have h₃ := @Store.Arises.newList _ _ [.boolean true, .string "b"] h₂ (hitems (by simp [Value.isPlain]))
    exact @Store.Arises.newList _ _ [.number (0 : Float), .primitive .car] h₃ (hitems (by simp [Value.isPlain]))
  have hvalues : ∀ v ∈ [a, b, c, d], v.Known [d, c, b, a] ∧ v.NoNaN := by
    have hzero : (Value.number (0 : Float)).NoNaN := .plain rfl (by rintro _ ⟨⟩; rfl)
    have hother {v : Value} (hplain : v.isPlain = true) (hnumber : v.isNumber = false) : v.NoNaN :=
      .plain hplain (by rintro x rfl; cases hnumber)
    intro v hv
    have hknown : v ∈ [d, c, b, a] := by simpa [or_comm, or_assoc, or_left_comm] using hv
    refine ⟨.inr hknown, ?_⟩
    simp only [List.mem_cons, List.not_mem_nil, or_false] at hv
    rcases hv with rfl | rfl | rfl | rfl
    all_goals
      refine .list _ fun w hw => ?_
      simp only [List.mem_cons, List.not_mem_nil, or_false] at hw
    · rcases hw with rfl | rfl <;> exact hother rfl rfl
    · rcases hw with rfl | rfl | rfl
      · exact hzero
      · exact hother rfl rfl
      · exact hother rfl rfl
    · rcases hw with rfl | rfl <;> exact hother rfl rfl
    · rcases hw with rfl | rfl
      · exact hzero
      · exact hother rfl rfl
  obtain ⟨hmirror, htrans, hequal, hchain⟩ := order_laws harises 1 2
  have had : atMost [a, d] = yes := rfl
  have hchained : atMost [a, b, c] = yes := rfl
  refine ⟨_, harises, hvalues, hmirror .null a, ⟨rfl, rfl, ?_⟩, ⟨had, rfl, ?_⟩, hchained, ?_⟩
  · exact htrans a b c (hvalues a (by simp)) (hvalues b (by simp)) (hvalues c (by simp)) rfl rfl
  · refine (hequal a d (hvalues a (by simp)) (hvalues d (by simp)) ?_).1 ⟨had, rfl⟩
    show atMost [a, d] ≠ _
    rw [had]
    nofun
  · exact (hchain [a, b, c] fun v hv => hvalues v (List.mem_append_left [d] hv)).1 hchained

end MiniScheme
