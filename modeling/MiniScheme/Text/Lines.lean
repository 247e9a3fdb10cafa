/-!
# Line ends

Lines of a file may end in a line feed, a carriage return or both. Programs see line feeds only.
-/

namespace MiniScheme.Text

/-- Replaces every way to end a line by a line feed. The flag says whether the character before was a carriage
return, whose line feed has been written already; `done` is what has been written, the latest first. -/
def lineFeedsFrom (done : List Char) (afterReturn : Bool) : List Char → List Char
  | [] => done.reverse
  | c :: rest =>
    if c = '\r' then lineFeedsFrom ('\n' :: done) true rest
    else if c = '\n' ∧ afterReturn = true then lineFeedsFrom done false rest
    else lineFeedsFrom (c :: done) false rest

/-- A text whose lines all end in line feeds. -/
def lineFeeds (s : String) : String := String.ofList (lineFeedsFrom [] false s.toList)

end MiniScheme.Text
