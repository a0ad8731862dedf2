import Stencil.Text.Lines

/-! # String literals — text inside single quotes of the host language

    A text is embedded in a single-quoted literal by doubling backslashes,
    writing a line ending as `\n` and putting a backslash before a single
    quote.  Nothing else is changed. -/

namespace Stencil.Text

/-- The form of one character inside a single-quoted literal. -/
def escapeChar (c : Char) : List Char :=
  if c == '\\' then ['\\', '\\']
  else if c == '\n' then ['\\', 'n']
  else if c == '\'' then ['\\', '\'']
  else [c]

/-- The body of the single-quoted literal that stands for a text. -/
def escapeLiteral (text : List Char) : List Char := (normalizeNewlines text).flatMap escapeChar

end Stencil.Text
