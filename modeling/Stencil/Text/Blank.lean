import Stencil.Text.Ranges

/-! # Blanks — white space of any script, and trimming

    Trimming removes every white space character at an end of a text, the
    information separators `U+001C` to `U+001F` and the no-break space
    included; zero-width characters are not white space. -/

namespace Stencil.Text

/-- The ranges of white space characters, in ascending order. -/
def blankRanges : List (Nat × Nat) :=
  [(0x9, 0xd), (0x1c, 0x20), (0x85, 0x85), (0xa0, 0xa0), (0x1680, 0x1680), (0x2000, 0x200a),
   (0x2028, 0x2029), (0x202f, 0x202f), (0x205f, 0x205f), (0x3000, 0x3000)]

/-- A white space character. -/
def isBlank (c : Char) : Bool := inRanges blankRanges c

/-- Removes the longest run of characters with `p` from the end. -/
def dropEndWhile (p : Char → Bool) (text : List Char) : List Char :=
  (text.reverse.dropWhile p).reverse

/-- Removes the characters with `p` from both ends. -/
def dropAround (p : Char → Bool) (text : List Char) : List Char :=
  dropEndWhile p (text.dropWhile p)

/-- Removes white space from the end. -/
def trimEnd (text : List Char) : List Char := dropEndWhile isBlank text

/-- Removes white space from both ends. -/
def trim (text : List Char) : List Char := dropAround isBlank text

/-- Removes the plain spaces at the front. -/
def dropSpaces (text : List Char) : List Char := text.dropWhile (· == ' ')

end Stencil.Text
