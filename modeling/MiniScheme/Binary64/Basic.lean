/-!
# Doubles as exact numbers

Every finite double is a whole number of *units* of `2 ^ -1074`, the smallest positive double. `parts` takes a
double apart into its sign and its units; `ofRatio` rounds an exact quotient to the nearest double, a tie going to
the even significand.
-/

namespace MiniScheme.Binary64

/-- How many units make one. -/
def unitsPerOne : Nat := Nat.pow 2 1074

/-- The result of an invalid operation. -/
def nan : Float := 0.0 / 0.0

/-- A double taken apart. A finite one has magnitude `units / unitsPerOne`. -/
inductive Parts where
  | nan
  | infinite (negative : Bool)
  | finite (negative : Bool) (units : Nat)
  deriving DecidableEq, Repr

/-- The units of the finite double with this exponent field and fraction. A field of zero marks a subnormal, which
has no hidden bit and the exponent of field one. -/
def unitsOfFields (field fraction : Nat) : Nat :=
  if field = 0 then fraction else (Nat.pow 2 52 + fraction) * Nat.pow 2 (field - 1)

/-- Takes the sign, exponent field and fraction of a double apart. -/
def parts (x : Float) : Parts :=
  let bits := x.toBits.toNat
  let negative := decide (Nat.pow 2 63 ≤ bits)
  let field := bits / Nat.pow 2 52 % Nat.pow 2 11
  let fraction := bits % Nat.pow 2 52
  if field = 2047 then
    if fraction = 0 then .infinite negative else .nan
  else .finite negative (unitsOfFields field fraction)

/-- The whole number nearest to `n / d`, a tie going to the even one. -/
def roundHalfEven (n d : Nat) : Nat :=
  if 2 * (n % d) < d ∨ (2 * (n % d) = d ∧ n / d % 2 = 0) then n / d else n / d + 1

/-- The bits of infinity, above those of every finite magnitude. -/
def infinityBits : Nat := 2047 * Nat.pow 2 52

/-- The two infinities. -/
def infinity (negative : Bool) : Float :=
  Float.ofBits (UInt64.ofNat ((if negative then Nat.pow 2 63 else 0) + infinityBits))

/-- Whether the sign is negative, also that of a zero. -/
def isNegative (x : Float) : Bool := decide (Nat.pow 2 63 ≤ x.toBits.toNat)

/-- The bits of the nearest double to the magnitude `n / d`. The quotient in units keeps its 53 leading binary digits;
each digit dropped raises the exponent field by one. A significand that rounds up to `2 ^ 53` carries into the
field by itself. -/
def roundedBits (n d : Nat) : Nat :=
  let scaled := n * unitsPerOne
  let dropped := Nat.log2 (scaled / d) - 52
  min (dropped * Nat.pow 2 52 + roundHalfEven scaled (d * Nat.pow 2 dropped)) infinityBits

/-- The nearest double to `n / d`, or to `-n / d`. -/
def ofRatio (negative : Bool) (n d : Nat) : Float :=
  Float.ofBits (UInt64.ofNat ((if negative then Nat.pow 2 63 else 0) + roundedBits n d))

/-- The double of a whole number. -/
def ofInt (i : Int) : Float := ofRatio (decide (i < 0)) i.natAbs 1

/-- The double of a number of units. -/
def ofUnits (negative : Bool) (units : Nat) : Float := ofRatio negative units unitsPerOne

/-- The nearest double to `digits / 10 ^ places`. -/
def ofDecimal (digits places : Nat) : Float := ofRatio false digits (Nat.pow 10 places)

end MiniScheme.Binary64
