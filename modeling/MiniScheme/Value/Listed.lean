import MiniScheme.Numeral
import MiniScheme.Text.Quoted
import MiniScheme.Value.Basic

/-!
# Listed values

The text of a value as listings of frames show it: unlike the printed form, it tells strings from symbols and
writes numbers with a point.
-/

namespace MiniScheme

/-- The parameter list of a lambda. -/
def Params.listed : Params → String
  | fixed names => "(" ++ " ".intercalate (names.map (·.lexeme)) ++ ")"
  | variadic name => name.lexeme

namespace Value

/-- The listed form of a closure, which leaves out the body. -/
def listedLambda (lambda : Lambda) : String := "<Procedure (lambda " ++ lambda.params.listed ++ " ...)>"

/-- The listed form, if lists are nested no deeper than the limit. -/
def listed? : (nesting : Nat) → Value → Option String
  | _, undefined => some "None"
  | _, boolean b => some (if b then "True" else "False")
  | _, number x => some (Numeral.listed.write x.toFloat)
  | _, string s => some (Text.quoted s)
  | _, null => some "()"
  | _, primitive p => some ("<PrimitiveProcedure " ++ p.name ++ ">")
  | _, closure _ lambda _ => some (listedLambda lambda)
  | 0, list .. => none
  | nesting + 1, list _ items =>
    match items.mapM (listed? nesting) with
    | some texts => some ("[" ++ ", ".intercalate texts ++ "]")
    | none => none

end Value
end MiniScheme
