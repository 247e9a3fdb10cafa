import MiniScheme.Binary64.Basic
import MiniScheme.Expr.Basic
import MiniScheme.Primitive.Basic

/-!
# Values

What evaluation produces. Lists and closures have an identity, which tells two of them apart even if they hold
the same things, and so has NaN. `same` models `is_same`.
-/

namespace MiniScheme

/-- The number of a frame in the store. -/
abbrev FrameId := Nat

/-- A closure's code: the parameters and the body of the lambda it was made by. -/
structure Lambda where
  params : Params
  body : List (Expr Atom)
  deriving Repr

/-- A double, and of NaN which object it is. -/
inductive Number where
  /-- The double alone. NaN in this form is the one object that undefined quotients and remainders share. -/
  | plain (x : Float)
  /-- A NaN that some other computation has made. -/
  | nan (identity : Nat)
  deriving Repr

namespace Number

instance : Inhabited Number := ⟨plain 0⟩

def toFloat : Number → Float
  | plain x => x
  | nan _ => Binary64.nan

instance : Coe Float Number := ⟨plain⟩

instance : Coe Number Float := ⟨toFloat⟩

def isNaN (x : Number) : Bool := x.toFloat.isNaN

/-- Whether two numbers are one NaN. -/
def sameNaN : Number → Number → Bool
  | plain x, plain y => x.isNaN && y.isNaN
  | nan i, nan j => i == j
  | _, _ => false

@[simp] theorem toFloat_plain (x : Float) : (plain x).toFloat = x := rfl

theorem sameNaN_comm (x y : Number) : x.sameNaN y = y.sameNaN x := by
  cases x <;> cases y <;> first | rfl | exact Bool.and_comm _ _ | exact BEq.comm

end Number

inductive Value where
  /-- The value of what has none. -/
  | undefined
  | boolean (b : Bool)
  | number (x : Number)
  | string (s : String)
  /-- The empty list. -/
  | null
  | list (identity : Nat) (items : List Value)
  | primitive (p : Primitive)
  /-- A lambda and the frame it was made in. -/
  | closure (identity : Nat) (lambda : Lambda) (frame : FrameId)
  deriving Repr

namespace Value

instance : Inhabited Value := ⟨undefined⟩

/-- The value of a literal. -/
def ofAtom : Atom → Value
  | .boolean b => boolean b
  | .number x => number x
  | .string s => string s

/-- A literal is of the kind of its value, and holds the same. -/
theorem ofAtom_eq_iff {a : Atom} {v : Value} :
    ofAtom a = v ↔ (∃ b, a = .boolean b ∧ v = boolean b) ∨ (∃ x : Float, a = .number x ∧ v = number x) ∨
      ∃ s, a = .string s ∧ v = string s := by
  cases a <;> simp [ofAtom, eq_comm]

/-- Everything but `#f` counts as true. -/
def isTrue : Value → Bool
  | boolean false => false
  | _ => true

/-- The elements of a list, also of the empty one. -/
def items? : Value → Option (List Value)
  | null => some []
  | list _ items => some items
  | _ => none

def isNull : Value → Bool
  | null => true
  | _ => false

def isNumber : Value → Bool
  | number _ => true
  | _ => false

def isString : Value → Bool
  | string _ => true
  | _ => false

def isProcedure : Value → Bool
  | primitive _ | closure .. => true
  | _ => false

/-- Sameness, as `=` and `equal?` decide it: booleans, numbers and strings by what they are, lists and procedures by
identity. NaN is not the same as itself. -/
def same : Value → Value → Bool
  | undefined, undefined => true
  | boolean a, boolean b => a == b
  | number x, number y => x.toFloat == y.toFloat
  | string s, string t => s == t
  | null, null => true
  | list i _, list j _ => i == j
  | primitive p, primitive q => p == q
  | closure i _ _, closure j _ _ => i == j
  | _, _ => false

end Value
end MiniScheme
