/-!
# Quoted text

A string between quotes on one line, with escapes for what could end it or is no visible character. Single quotes
are used unless only they would need an escape. Characters beyond ASCII stand for themselves.
-/

namespace MiniScheme.Text

/-- One digit of a hexadecimal number. -/
def hexDigit (n : Nat) : Char := if n < 10 then Char.ofNat (48 + n) else Char.ofNat (87 + n)

/-- A character inside quotes of the given kind. -/
def quotedChar (mark c : Char) : String :=
  if c = mark ∨ c = '\\' then String.ofList ['\\', c]
  else if c = '\t' then "\\t"
  else if c = '\n' then "\\n"
  else if c = '\r' then "\\r"
  else if c.toNat < 32 ∨ c.toNat = 127 then
    String.ofList ['\\', 'x', hexDigit (c.toNat / 16), hexDigit (c.toNat % 16)]
  else c.toString

/-- The kind of quotes around a text. -/
def quoteMark (s : String) : Char :=
  if s.toList.contains '\x27' && !s.toList.contains '\x22' then '\x22' else '\x27'

/-- A text in quotes. -/
def quoted (s : String) : String :=
  let mark := quoteMark s
  mark.toString ++ String.join (s.toList.map (quotedChar mark)) ++ mark.toString

end MiniScheme.Text
