import MiniScheme.Numeral
import MiniScheme.Value.Basic

/-!
# Printed values

The text of a value as `display` and results show it. Every list costs one level of the nesting limit. `printed?`
models `stringify`.
-/

namespace MiniScheme.Value

/-- The printed form, if lists are nested no deeper than the limit. -/
def printed? : (nesting : Nat) → Value → Option String
  | _, undefined => some "undefined"
  | _, boolean b => some (if b then "#t" else "#f")
  | _, number x => some (Numeral.printed.write x.toFloat)
  | _, string s => some s
  | _, null => some "()"
  | _, primitive _ => some "PrimitiveProcedure"
  | _, closure .. => some "Procedure"
  | 0, list .. => none
  | nesting + 1, list _ items =>
    match items.mapM (printed? nesting) with
    | some texts => some ("(" ++ " ".intercalate texts ++ ")")
    | none => none

end MiniScheme.Value
