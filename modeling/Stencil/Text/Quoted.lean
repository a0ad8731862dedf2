import Stencil.Text.Printable

/-! # Quoted display — a text as it is shown to a person

    A text is shown between single quotes, or between double quotes when it
    holds a single quote and no double quote.  The quote in use and the
    backslash get a backslash, tab, line feed and carriage return have short
    forms, and every other unprintable character is shown by its code point in
    the narrowest of the forms `\xhh`, `\uhhhh` and `\Uhhhhhhhh`. -/

namespace Stencil.Text

/-- The last `width` hexadecimal digits of a number, the most significant first. -/
def hexDigits : Nat → Nat → List Char
  | 0, _ => []
  | width + 1, n => hexDigits width (n / 16) ++ [Nat.digitChar (n % 16)]

/-- A character shown by its code point. -/
def showCodePoint (c : Char) : List Char :=
  if c.toNat < 0x100 then '\\' :: 'x' :: hexDigits 2 c.toNat
  else if c.toNat < 0x10000 then '\\' :: 'u' :: hexDigits 4 c.toNat
  else '\\' :: 'U' :: hexDigits 8 c.toNat

/-- A character between quotes of the given kind. -/
def showChar (quote c : Char) : List Char :=
  if c == quote || c == '\\' then ['\\', c]
  else if c == '\t' then ['\\', 't']
  else if c == '\n' then ['\\', 'n']
  else if c == '\r' then ['\\', 'r']
  else if isPrintable c then [c]
  else showCodePoint c

/-- The quote that a text is shown between. -/
def displayQuote (text : List Char) : Char :=
  if text.contains '\'' && !text.contains '"' then '"' else '\''

/-- The quoted display of a text. -/
def quoted (text : String) : String :=
  let quote := displayQuote text.toList
  String.ofList (quote :: text.toList.flatMap (showChar quote) ++ [quote])

/-- The display of a list of texts, each quoted. -/
def quotedList (texts : List String) : String :=
  "[" ++ String.intercalate ", " (texts.map quoted) ++ "]"

end Stencil.Text
