import MiniScheme.Token.Basic

/-!
# Syntax errors

What is wrong with a source text, and on which line.
-/

namespace MiniScheme

/-- Why a text is no program. -/
inductive SyntaxError.Cause where
  /-- No token, comment or blank starts with this character. -/
  | unknownCharacter (c : Char)
  /-- No expression starts with a token of this kind. -/
  | unexpected (found : Token.Shape)
  /-- The input ended before the bracket that closes a form. -/
  | unclosed
  /-- After a token of kind `last`, the grammar wants one of kind `wanted`. -/
  | expected (last wanted : Token.Shape)
  /-- Expressions are nested beyond the limit. -/
  | nestingTooDeep
  deriving DecidableEq, Repr

structure SyntaxError where
  line : Int
  cause : SyntaxError.Cause
  deriving DecidableEq, Repr

namespace SyntaxError

/-- The words for a cause. -/
def Cause.message : Cause → String
  | unknownCharacter c => s!"Unknown token {c}"
  | unexpected found => s!"Unexpected token: {found.name}"
  | unclosed => "Unexpected token: Eof, expected RightBracket"
  | expected last wanted => s!"Unexpected token {last.name}, expected {wanted.name}"
  | nestingTooDeep => "Nesting too deep"

/-- The line of text that reports an error. -/
def message (e : SyntaxError) : String := s!"SyntaxError: [line: {e.line}] {e.cause.message}"

end SyntaxError
end MiniScheme
