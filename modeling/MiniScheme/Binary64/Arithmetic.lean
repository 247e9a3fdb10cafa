import MiniScheme.Binary64.Basic

/-!
# Exact arithmetic on doubles

The remainder of a division and the rounding to a whole number, computed on units. Neither result needs rounding.
What an operation is not defined on has no result here.
-/

namespace MiniScheme.Binary64

/-- What is left of `x` after taking `y` away as often as a quotient cut towards zero says. It has the sign of `x`. -/
def remainder? (x y : Float) : Option Float :=
  match parts x, parts y with
  | .nan, _ | _, .nan => some nan
  | .finite negative u, .finite _ v => if v = 0 then none else some (ofUnits negative (u % v))
  | .finite _ _, .infinite _ => some x
  | .infinite _, _ => none

/-- The greatest whole number not above a finite double. -/
def floor? (x : Float) : Option Int :=
  match parts x with
  | .finite false u => some (u / unitsPerOne : Nat)
  | .finite true u => some (-((u + unitsPerOne - 1) / unitsPerOne : Nat))
  | _ => none

/-- A double that is finite. -/
def finite? (x : Float) : Option Float :=
  match parts x with
  | .finite _ _ => some x
  | _ => none

/-- The double of a whole number, unless that is too great for one. -/
def ofInt? (i : Int) : Option Float := finite? (ofInt i)

end MiniScheme.Binary64
