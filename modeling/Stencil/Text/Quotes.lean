/-! # Quotes at the edges of a text

    A quoted name or value sheds one quote at each end.  The ends are looked
    at independently, so an unbalanced quote goes too, and a quote before a
    final line feed counts as the last one. -/

namespace Stencil.Text

/-- A single or double quote. -/
def isQuote (c : Char) : Bool := c == '"' || c == '\''

/-- Removes one quote at the front. -/
def dropLeadingQuote : List Char → List Char
  | [] => []
  | c :: rest => if isQuote c then rest else c :: rest

/-- Removes one quote at the end, or just before a final line feed. -/
def dropTrailingQuote : List Char → List Char
  | [] => []
  | [c] => if isQuote c then [] else [c]
  | [c, '\n'] => if isQuote c then ['\n'] else [c, '\n']
  | c :: rest => c :: dropTrailingQuote rest

/-- Removes one quote at each end. -/
def stripQuotes (text : List Char) : List Char := dropTrailingQuote (dropLeadingQuote text)

end Stencil.Text
