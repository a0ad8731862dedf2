/-! # Lines — the one line ending

    A carriage return, alone or before a line feed, ends a line like a line
    feed does.  Every text is brought to line feeds before it is read, so no
    later rule sees a carriage return. -/

namespace Stencil.Text

/-- Writes every line ending as a single line feed. -/
def normalizeNewlines : List Char → List Char
  | [] => []
  | '\r' :: '\n' :: rest => '\n' :: normalizeNewlines rest
  | '\r' :: rest => '\n' :: normalizeNewlines rest
  | c :: rest => c :: normalizeNewlines rest

/-- The characters up to the end of the line, and the rest from the line feed on. -/
def splitLine (text : List Char) : List Char × List Char :=
  (text.takeWhile (· != '\n'), text.dropWhile (· != '\n'))

/-- The number of line feeds. -/
def countNewlines (text : List Char) : Nat := text.count '\n'

end Stencil.Text
