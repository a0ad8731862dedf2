import Stencil.Lexer.Basic

/-! # Indentation — what the start of a line says

    The first indented line settles whether the template is indented with tabs
    or with spaces.  The width of a line is the number of those characters at
    its front.  A wider line opens a level, a narrower one closes every level
    that is wider than it, and a line of the same width is a sibling. -/

namespace Stencil.Lexer

/-- The rest of a text after a blank line at its front: the line feed that ends it is kept, so
    that the next line still shows its indentation. -/
def afterBlankLine? : List Char → Option (List Char)
  | '\n' :: rest =>
      let after := Text.dropSpaces rest
      if after.head? == some '\n' then some after else none
  | _ => none

/-- Skips the blank lines at the front; the fuel is the length of the text. -/
def skipBlankLines : Nat → Lexer → Lexer
  | 0, lexer => lexer
  | fuel + 1, lexer =>
      match afterBlankLine? lexer.input with
      | some rest => skipBlankLines fuel { lexer with input := rest, line := lexer.line + 1 }
      | none => lexer

/-- The number of characters of a style at the front of a text. -/
def widthIn (style : IndentStyle) (text : List Char) : Nat :=
  (text.takeWhile (· == style.char)).length

/-- The style that a line is measured in: the settled one, else tabs when a tab comes first. -/
def styleFor (lock : Option IndentLock) (text : List Char) : IndentStyle :=
  match lock with
  | some lock => lock.style
  | none => if text.head? == some '\t' then .tabs else .spaces

/-- Moves to the next line, past its indentation, and settles the style when this is the first
    indented line.  `text` is the text after the line feed. -/
def enterLine (lexer : Lexer) (text : List Char) : Lexer :=
  let style := styleFor lexer.lock text
  let width := widthIn style text
  let line := lexer.line + 1
  { lexer with
    input := text.drop width, line,
    lock := lexer.lock <|> (if width = 0 then none else some ⟨style, line⟩) }

/-- Closes every level wider than the given width: one token for each, the first given out and
    the others pending. -/
def closeLevels (lexer : Lexer) (width : Nat) : Outcome Token :=
  let closed := lexer.levels.takeWhile (width < ·)
  let outdent := lexer.token .outdent
  { lexer with
    levels := lexer.levels.dropWhile (width < ·),
    pending := lexer.pending ++ List.replicate (closed.length - 1) outdent }.emit outdent

/-- Compares the width of a line with statements on it to the innermost level. -/
def placeLine (lexer : Lexer) (width : Nat) : Outcome Token :=
  let current := lexer.levels.headD 0
  if width < current then lexer.closeLevels width
  else if current < width then
    { lexer with levels := width :: lexer.levels }.emit ⟨lexer.line, .indent width⟩
  else lexer.emit (lexer.token .newline)

/-- Reads a line feed and the indentation of the next line.  `text` is the text after the line
    feed. -/
def readLineBreak (lexer : Lexer) (text : List Char) : Outcome Token :=
  let width := widthIn (styleFor lexer.lock text) text
  let entered := lexer.enterLine text
  match entered.input with
  | [] => entered.emit (entered.token .newline)
  | c :: _ =>
      if c == ' ' || c == '\t' then entered.fail .mixedIndentation
      else if c == '\n' then entered.emit (entered.token .newline)
      else entered.placeLine width

end Stencil.Lexer
