import MiniScheme.Binary64.Basic

/-!
# The fewest digits that read back

Every finite double is a decimal with 1074 places, since one unit is `5 ^ 1074 / 10 ^ 1074`. `shortest` cuts that
exact decimal as far as it can be cut such that one of the two neighbours at the cut still reads back as the same
double.
-/

namespace MiniScheme.Binary64

/-- How many places the exact decimal of a double can need. -/
def places : Nat := 1074

/-- The magnitude `digits * 10 ^ dropped / 10 ^ places`. -/
structure Decimal where
  digits : Nat
  dropped : Nat
  deriving DecidableEq, Repr

namespace Decimal

/-- The bits a decimal reads as. -/
def bits (d : Decimal) : Nat :=
  if d.dropped ≤ places then roundedBits d.digits (Nat.pow 10 (places - d.dropped))
  else roundedBits (d.digits * Nat.pow 10 (d.dropped - places)) 1

/-- The number of digits, zero for zero. -/
def length (n : Nat) : Nat := if n = 0 then 0 else (Nat.toDigits 10 n).length

/-- The decimal exponent of the first digit. -/
def exponent (d : Decimal) : Int := (length d.digits + d.dropped : Nat) - 1 - (places : Int)

/-- The neighbours of `exact` with `dropped` digits cut off that read as `target`: the nearer one if both do, the
even one if they are equally near. -/
def cut? (target exact dropped : Nat) : Option Decimal :=
  let step := Nat.pow 10 dropped
  let below : Decimal := ⟨exact / step, dropped⟩
  let above : Decimal := ⟨exact / step + 1, dropped⟩
  match decide (below.bits = target), decide (above.bits = target) with
  | false, false => none
  | true, false => some below
  | false, true => some above
  | true, true => if roundHalfEven exact step = below.digits then some below else some above

/-- Cuts at most `dropped` digits off, as many as possible. -/
def shortestFrom (target exact : Nat) : Nat → Decimal
  | 0 => ⟨exact, 0⟩
  | dropped + 1 =>
    match cut? target exact (dropped + 1) with
    | some d => d
    | none => shortestFrom target exact dropped

end Decimal

/-- At least the number of digits, since `2 ^ 1000 < 10 ^ 302`. -/
def Decimal.lengthBound (n : Nat) : Nat := (Nat.log2 n + 1) * 302 / 1000 + 1

/-- The decimal with the fewest digits that reads back as the double of so many units, and of those the nearest. -/
def shortest (units : Nat) : Decimal :=
  let exact := units * Nat.pow 5 places
  Decimal.shortestFrom (roundedBits units unitsPerOne) exact (Decimal.lengthBound exact)

end MiniScheme.Binary64
