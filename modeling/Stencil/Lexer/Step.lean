import Stencil.Lexer.Indentation
import Stencil.Attribute.Scanner

/-! # One step of the lexer

    A step gives out a pending token or scans the text.  Every scan takes
    characters from the text, closes a level, or says that the stream has
    ended. -/

namespace Stencil.Lexer

/-- The text of a group up to the parenthesis that closes it, and the text after it; `depth`
    parentheses are open beyond the group's own. -/
def group? : Nat → List Char → Option (List Char × List Char)
  | _, [] => none
  | depth, c :: rest =>
      if c == '(' then (group? (depth + 1) rest).map fun (body, after) => (c :: body, after)
      else if c == ')' then
        match depth with
        | 0 => some ([], rest)
        | depth + 1 => (group? depth rest).map fun (body, after) => (c :: body, after)
      else (group? depth rest).map fun (body, after) => (c :: body, after)

/-- Reads an attribute list; `text` is the text after its opening parenthesis. -/
def readAttributes (lexer : Lexer) (text : List Char) : Outcome Token :=
  match group? 0 text with
  | none => lexer.fail .unterminatedAttributes
  | some (body, after) =>
      let closed := after.head? == some '/'
      { lexer with
        input := if closed then after.tail else after,
        line := lexer.line + Text.countNewlines body }.emit
          ⟨lexer.line, .attrs (Attribute.parseList body lexer.colons) closed⟩

/-- Reads a line of raw text up to its end. -/
def readRawLine (lexer : Lexer) : Outcome Token :=
  let (line, rest) := Text.splitLine lexer.input
  { lexer with input := rest }.emit (lexer.token .text (String.ofList line))

/-- At the end of the text: closes the innermost level, or ends the stream. -/
def readEnd (lexer : Lexer) : Outcome Token :=
  match lexer.levels with
  | [] => lexer.emit (lexer.token .eos)
  | _ :: levels => { lexer with levels }.emit (lexer.token .outdent)

/-- Reads the form at the front of the text. -/
def readForm (lexer : Lexer) : Outcome Token :=
  match Form.first? lexer.input with
  | none => lexer.fail (.unrecognised (Text.quoted (String.ofList (lexer.input.take 20))))
  | some found =>
      { lexer with
        input := found.rest,
        pending := lexer.pending ++ if found.colon then [lexer.token .colon] else [] }.emit
          ⟨lexer.line, found.lexeme⟩

/-- Scans the text when no blank line is at its front. -/
def scanLine (lexer : Lexer) : Outcome Token :=
  match lexer.input with
  | [] => lexer.readEnd
  | '\n' :: text => lexer.readLineBreak text
  | c :: text =>
      match lexer.mode with
      | .raw => lexer.readRawLine
      | .markup => if c == '(' then lexer.readAttributes text else lexer.readForm

/-- Scans the text for a token.  A blank line at its front is an empty line of raw text; between
    statements it is skipped together with the ones behind it. -/
def scan (lexer : Lexer) : Outcome Token :=
  match afterBlankLine? lexer.input with
  | none => lexer.scanLine
  | some rest =>
      let entered := { lexer with input := rest, line := lexer.line + 1 }
      match lexer.mode with
      | .raw => entered.emit (entered.token .text)
      | .markup => (entered.skipBlankLines rest.length).scanLine

/-- The next token of the text: a pending one, else a scanned one. -/
def next (lexer : Lexer) : Outcome Token :=
  match lexer.pending with
  | token :: pending => { lexer with pending }.emit token
  | [] => lexer.scan

end Stencil.Lexer
