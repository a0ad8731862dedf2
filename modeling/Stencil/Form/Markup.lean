import Stencil.Form

/-! # Markup forms — elements, their shorthands, comments and text -/

namespace Stencil.Form

/-- The form `doctype name`, also written `!!! name`; the name may be left out. -/
def doctype : Form := fun text => do
  let after ← afterWord? "!!!".toList text <|> afterWholeWord? "doctype" text
  let (name, rest) := Text.splitLine (Text.dropSpaces after)
  return { lexeme := .bare .doctype (String.ofList name), rest }

/-- The form of an element whose name is an expression in braces behind `#`. -/
def interpolatedTag : Form := fun text => do
  let after ← afterWord? "#\x7b".toList text
  let expression := after.takeWhile fun c => inLine c && c != '}'
  match after.dropWhile fun c => inLine c && c != '}' with
  | '}' :: rest => return { lexeme := .bare .interpolation (String.ofList expression), rest }
  | _ => none

/-- A character of an element name after the first. -/
def inTagName (c : Char) : Bool := Text.isNamePart c || c == ':'

/-- The form of an element name, with an optional slash that closes the element.  A colon at
    the end of the name announces a body on the line. -/
def tagName : Form := fun text =>
  if text.head?.any Text.isWord then
    let name := text.takeWhile inTagName
    let after := text.dropWhile inTagName
    let closed := after.head? == some '/'
    let rest := if closed then after.tail else after
    if name.getLast? == some ':' then
      some { lexeme := .tag (String.ofList name.dropLast) false, colon := true,
             rest := Text.dropSpaces rest }
    else some { lexeme := .tag (String.ofList name) closed, rest }
  else none

/-- The form `:name` of a filter. -/
def filterName : Form := signed ':' Text.isWord .filter

/-- The form `#name` of an identifier. -/
def idName : Form := signed '#' Text.isNamePart .idName

/-- The form `.name` of a class. -/
def className : Form := signed '.' Text.isNamePart .className

/-- The form `// text` of a comment; a dash after the slashes keeps it out of the output. -/
def comment : Form := fun text => do
  let after ← afterWord? "//".toList (Text.dropSpaces text)
  let (buffer, after) := match after with
    | '-' :: hidden => (false, hidden)
    | _ => (true, after)
  let (line, rest) := Text.splitLine after
  return { lexeme := .comment (String.ofList line) buffer, rest }

/-- The text of a line without its mark: a bar and a space, a bar, or a space.  The mark is
    text itself when nothing follows it. -/
def unmarked : List Char → List Char
  | '|' :: ' ' :: c :: rest => c :: rest
  | '|' :: c :: rest => c :: rest
  | ' ' :: c :: rest => c :: rest
  | line => line

/-- The form of a line of text. -/
def textLine : Form := fun text => do
  let (line, rest) ← run? inLine text
  return { lexeme := .bare .text (String.ofList (unmarked line)), rest }

end Stencil.Form
