import Stencil.Token
import Stencil.Text.Blank
import Stencil.Text.Lines
import Stencil.Text.Word

/-! # Statement forms — what a piece of a line can say

    A form looks at the front of the text and either does not match, or gives
    a lexeme and the text after it.  A form never reads past the end of the
    line.  The modules below this one hold the forms; this one holds the pieces
    they are made of. -/

namespace Stencil

/-- What a form found at the front of a text. -/
structure Match where
  lexeme : Lexeme
  /-- Whether a colon token follows: the rest of the line is the body. -/
  colon : Bool := false
  /-- The text after the match. -/
  rest : List Char
deriving Repr, DecidableEq

/-- A recogniser for the front of a text. -/
abbrev Form := List Char → Option Match

namespace Form

/-- The text after a given word at the front. -/
def afterWord? : List Char → List Char → Option (List Char)
  | [], text => some text
  | _ :: _, [] => none
  | w :: word, c :: text => if w == c then afterWord? word text else none

/-- Whether no word character stands at the front. -/
def atWordEnd : List Char → Bool
  | [] => true
  | c :: _ => !Text.isWord c

/-- The text after a given word at the front that ends there. -/
def afterWholeWord? (word : String) (text : List Char) : Option (List Char) :=
  (afterWord? word.toList text).filter atWordEnd

/-- A non-empty run of characters with `p`, and the text after it. -/
def run? (p : Char → Bool) (text : List Char) : Option (List Char × List Char) :=
  let body := text.takeWhile p
  if body.isEmpty then none else some (body, text.dropWhile p)

/-- A non-empty run of characters with `p` behind at least `least` spaces.  When nothing else
    with `p` is there, a space beyond the `least` is the run, if spaces have `p`. -/
def spacedRun? (least : Nat) (p : Char → Bool) (text : List Char) :
    Option (List Char × List Char) :=
  let spaces := (text.takeWhile (· == ' ')).length
  let after := Text.dropSpaces text
  if spaces < least then none
  else match run? p after with
    | some found => some found
    | none => if least < spaces && p ' ' then some ([' '], after) else none

/-- Any character but a line feed. -/
def inLine (c : Char) : Bool := c != '\n'

/-- A non-empty rest of the line behind at least one space. -/
def spacedLine? (text : List Char) : Option (List Char × List Char) := spacedRun? 1 inLine text

/-- The form of a keyword followed by spaces and a non-empty rest of the line. -/
def keywordLine (word : String) (lexeme : String → Lexeme) : Form := fun text => do
  let after ← afterWord? word.toList text
  let (line, rest) ← spacedLine? after
  return { lexeme := lexeme (String.ofList line), rest }

/-- The form of a sign followed by a non-empty run of characters with `p`. -/
def signed (sign : Char) (p : Char → Bool) (kind : TokenKind) : Form := fun text => do
  let after ← afterWord? [sign] text
  let (name, rest) ← run? p after
  return { lexeme := .bare kind (String.ofList name), rest }

/-- Takes a colon and the spaces after it when one is at the front. -/
def optionalColon (text : List Char) : Bool × List Char :=
  match text with
  | ':' :: after => (true, Text.dropSpaces after)
  | _ => (false, text)

end Form

end Stencil
