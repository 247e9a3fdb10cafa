import MiniScheme.Binary64.Shortest

/-!
# Numerals

The text of a double. A `Notation` holds what one style of writing decides: which magnitudes are written out in
positions and which with an exponent, and the words for what is not a number. The digits themselves are the
fewest that read back. `write` in the notation `printed` models `format_number`.
-/

namespace MiniScheme

/-- A style of writing doubles. -/
structure Numeral.Notation where
  /-- The least decimal exponent that is written out in positions. -/
  least : Int
  /-- The greatest decimal exponent that is written out in positions. -/
  greatest : Int
  /-- Whether whole numbers in positions show all their digits, also those that reading back does not need. -/
  exactWhole : Bool
  /-- What follows a whole number in positions. -/
  wholeMark : String
  /-- The fewest digits of an exponent. -/
  exponentWidth : Nat
  /-- Whether negative zero keeps its sign. -/
  signedZero : Bool
  nan : String
  infinity : String

namespace Numeral

/-- The text of digits alone. -/
def digits (n : Nat) : String := String.ofList (Nat.toDigits 10 n)

/-- So many zeros. -/
def zeros (n : Nat) : String := String.ofList (List.replicate n '0')

namespace Notation

/-- Digits written out in positions, the first at the place of `10 ^ exponent`. -/
def positions (style : Notation) (ds : List Char) (exponent : Int) : String :=
  if exponent < 0 then
    "0." ++ zeros (-exponent - 1).toNat ++ String.ofList ds
  else
    let whole := exponent.toNat + 1
    if ds.length ≤ whole then
      String.ofList ds ++ zeros (whole - ds.length) ++ style.wholeMark
    else
      String.ofList (ds.take whole) ++ "." ++ String.ofList (ds.drop whole)

/-- Digits written with an exponent, a point after the first. -/
def scientific (style : Notation) (ds : List Char) (exponent : Int) : String :=
  let mantissa :=
    match ds with
    | [] => ""
    | [d] => String.ofList [d]
    | d :: rest => String.ofList [d] ++ "." ++ String.ofList rest
  let power := digits exponent.natAbs
  mantissa ++ (if exponent < 0 then "e-" else "e+") ++ zeros (style.exponentWidth - power.length) ++ power

/-- A positive magnitude. -/
def magnitude (style : Notation) (units : Nat) : String :=
  let whole := units / Binary64.unitsPerOne
  if style.exactWhole ∧ units % Binary64.unitsPerOne = 0 ∧ whole < Nat.pow 10 (style.greatest + 1).toNat then
    digits whole ++ style.wholeMark
  else
    let d := Binary64.shortest units
    let ds := Nat.toDigits 10 d.digits
    if style.least ≤ d.exponent ∧ d.exponent ≤ style.greatest then
      style.positions ds d.exponent
    else style.scientific ds d.exponent

/-- The sign in front of a magnitude. -/
def sign (negative : Bool) : String := if negative then "-" else ""

/-- The text of a double. -/
def write (style : Notation) (x : Float) : String :=
  match Binary64.parts x with
  | .nan => style.nan
  | .infinite negative => sign negative ++ style.infinity
  | .finite negative units =>
    if units = 0 then sign (negative && style.signedZero) ++ "0" ++ style.wholeMark
    else sign negative ++ style.magnitude units

end Notation

/-- Printed numbers have an exponent only below `10 ^ -6` and from `10 ^ 21` up, whole numbers below that show every
digit and no point, and zero has no sign. -/
def printed : Notation where
  least := -6
  greatest := 20
  exactWhole := true
  wholeMark := ""
  exponentWidth := 1
  signedZero := false
  nan := "NaN"
  infinity := "Infinity"

/-- Listed numbers always have a point or an exponent, the latter below `10 ^ -4` and from `10 ^ 16` up and with two
digits at least. -/
def listed : Notation where
  least := -4
  greatest := 15
  exactWhole := false
  wholeMark := ".0"
  exponentWidth := 2
  signedZero := true
  nan := "nan"
  infinity := "inf"

/-- The value of decimal digits. -/
def natOfDigits (ds : List Char) : Nat := ds.foldl (fun n c => 10 * n + (c.toNat - 48)) 0

/-- The double that a run of digits and points begins with: digits and, after one point, more digits. What follows a
second point has no meaning. -/
def read (run : List Char) : Float :=
  let whole := run.takeWhile Char.isDigit
  match run.dropWhile Char.isDigit with
  | '.' :: rest =>
    let fraction := rest.takeWhile Char.isDigit
    Binary64.ofDecimal (natOfDigits (whole ++ fraction)) fraction.length
  | _ => Binary64.ofDecimal (natOfDigits whole) 0

end Numeral
end MiniScheme
