import MiniScheme.Value.Basic

/-!
# The order of values

`<=` and `>=` compare numbers with numbers, where booleans count as zero and one, strings with strings by their
characters, and lists with lists by the first place where they differ. No other two values are comparable.

Lists are compared for equality first, and equality looks inside them. Only there an identity decides early: one list
equals itself at any nesting, and one NaN equals itself, though as numbers no two NaN are equal. Every pair of lists
costs one level of the nesting limit.

`compare` models the tests that `lte` and `gte` put to two arguments, and `pairwise` models `_pairwise`.
-/

namespace MiniScheme.Value

/-- The number that a value counts as in comparisons. -/
def magnitude? : Value → Option Float
  | number x => some x.toFloat
  | boolean b => some (if b then 1 else 0)
  | _ => none

/-- Equality of the values that are not both lists. -/
def equalAtoms (a b : Value) : Bool :=
  match a.magnitude?, b.magnitude? with
  | some x, some y => x == y
  | _, _ => a.same b

/-- Whether two values are one NaN. -/
def sameNaN : Value → Value → Bool
  | number x, number y => x.sameNaN y
  | _, _ => false

/-- Whether two lists agree at every place, given their lengths do. The first difference ends the search. -/
def allEqual? (equal? : Value → Value → Option Bool) : List Value → List Value → Option Bool
  | a :: as, b :: bs =>
    match equal? a b with
    | some true => allEqual? equal? as bs
    | other => other
  | _, _ => some true

/-- Equality of elements, if their lists are nested no deeper than the limit. -/
def equal? : (nesting : Nat) → Value → Value → Option Bool
  | nesting, list i as, list j bs =>
    if i = j then some true
    else
      match nesting with
      | 0 => none
      | nesting + 1 => if as.length = bs.length then allEqual? (equal? nesting) as bs else some false
  | _, a, b => some (a.sameNaN b || equalAtoms a b)

/-- The elements at the first place where two lists differ, if there is one. -/
def firstDifference? (equal? : Value → Value → Option Bool) :
    List Value → List Value → Option (Option (Value × Value))
  | a :: as, b :: bs =>
    match equal? a b with
    | some true => firstDifference? equal? as bs
    | some false => some (some (a, b))
    | none => none
  | _, _ => some none

/-- The two ways to compare. -/
inductive Direction where
  | atMost
  | atLeast
  deriving DecidableEq, Repr

namespace Direction

def floats : Direction → Float → Float → Bool
  | atMost, x, y => decide (x ≤ y)
  | atLeast, x, y => decide (y ≤ x)

def strings : Direction → String → String → Bool
  | atMost, s, t => decide (s ≤ t)
  | atLeast, s, t => decide (t ≤ s)

def lengths : Direction → Nat → Nat → Bool
  | atMost, m, n => decide (m ≤ n)
  | atLeast, m, n => decide (n ≤ m)

end Direction

/-- Why a comparison has no answer. -/
inductive Obstacle where
  | incomparable
  | nestingTooDeep
  deriving DecidableEq, Repr

/-- Whether `a` stands to `b` in the given direction. -/
def compare (direction : Direction) : (nesting : Nat) → Value → Value → Except Obstacle Bool
  | nesting, list _ as, list _ bs =>
    match nesting with
    | 0 => .error .nestingTooDeep
    | nesting + 1 =>
      match firstDifference? (equal? nesting) as bs with
      | some (some (a, b)) => compare direction nesting a b
      | some none => .ok (direction.lengths as.length bs.length)
      | none => .error .nestingTooDeep
  | _, string s, string t => .ok (direction.strings s t)
  | _, a, b =>
    match a.magnitude?, b.magnitude? with
    | some x, some y => .ok (direction.floats x y)
    | _, _ => .error .incomparable

/-- Whether a test holds of every two neighbours. The first pair it fails on ends the search. -/
def pairwise (test : Value → Value → Except Obstacle Bool) : List Value → Except Obstacle Bool
  | a :: b :: rest =>
    match test a b with
    | .ok true => pairwise test (b :: rest)
    | other => other
  | _ => .ok true

end MiniScheme.Value
