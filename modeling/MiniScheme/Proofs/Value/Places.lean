import MiniScheme.Proofs.Expr.Places
import MiniScheme.Proofs.Value.Correspondence

/-!
# Places do not matter to values

A closure keeps its lambda, and with it the places of names in the source. No test, comparison or text of a value
depends on them, and so no primitive does.

* `Value.unplaced` — the value without the places.
* `Value.correspondence_unplaced` — it corresponds to the value with them.
-/

namespace MiniScheme

/-- The lambda without the places of its names. -/
def Lambda.unplaced (lambda : Lambda) : Lambda := ⟨lambda.params.unplaced, lambda.body.map Expr.unplaced⟩

namespace Value

mutual
/-- The value without the places of the names in its closures. -/
def unplaced : Value → Value
  | undefined => undefined
  | boolean b => boolean b
  | number x => number x
  | string s => string s
  | null => null
  | list i items => list i (unplacedAll items)
  | primitive p => primitive p
  | closure i lambda frame => closure i lambda.unplaced frame
/-- The values without the places of the names in their closures. -/
def unplacedAll : List Value → List Value
  | [] => []
  | v :: vs => v.unplaced :: unplacedAll vs
end

@[simp] theorem unplacedAll_eq_map (vs : List Value) : unplacedAll vs = vs.map unplaced := by
  induction vs with
  | nil => rfl
  | cons v vs ih => rw [unplacedAll, ih, List.map_cons]

theorem unplaced_list (i : Nat) (items : List Value) : (list i items).unplaced = list i (items.map unplaced) := by
  rw [unplaced, unplacedAll_eq_map]

theorem unplaced_of_isPlain {v : Value} (hv : v.isPlain = true) : v.unplaced = v := by
  cases v <;> first | rfl | cases hv

theorem same_unplaced (v w : Value) : v.unplaced.same w.unplaced = v.same w := by
  cases v <;> cases w <;> rfl

/-- **Nothing that is made of a value depends on places.** -/
theorem correspondence_unplaced : Correspondence fun v w => w = v.unplaced where
  alike := by
    rintro v _ rfl
    cases v with
    | list i items =>
      rw [unplaced_list]
      exact .list (List.forall₂_map_right_iff.2 (List.forall₂_same.2 fun _ _ => rfl))
    | closure => exact .closure
    | number x => exact alike_number x
    | _ => exact .plain rfl
  plain hv := (unplaced_of_isPlain hv).symm
  same := by
    rintro v _ v' _ rfl rfl
    exact same_unplaced v v'
  nan h h' := by
    cases h
    cases h'
    rfl

end Value
end MiniScheme
