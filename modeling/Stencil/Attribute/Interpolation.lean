import Stencil.Text.Quotes

/-! # Interpolation — expressions inside the string literals of a value

    Inside a string literal, `#` and an expression in braces stand for the
    value of the expression: the literal is closed, the expression joined in
    and the literal opened again with the same quote.  A backslash before `#`
    keeps the text as it is.  Text outside of literals is never changed.

    A literal runs from a quote to the next one of the same kind that no
    backslash stands before; a backslash takes the character after it along,
    but not a line feed.  A quote that starts no literal is plain text. -/

namespace Stencil.Attribute

/-- The characters of a literal after its opening quote, closing quote included, and the
    text after it. -/
def literalRest (quote : Char) : List Char → Option (List Char × List Char)
  | [] => none
  | '\\' :: c :: rest =>
      if c == '\n' then none
      else (literalRest quote rest).map fun (body, after) => ('\\' :: c :: body, after)
  | c :: rest =>
      if c == quote then some ([c], rest)
      else if c == '\\' then none
      else (literalRest quote rest).map fun (body, after) => (c :: body, after)

/-- The expression after an opening brace and the text after its closing brace; an
    expression has at least one character. -/
def braceExpression (text : List Char) : Option (List Char × List Char) :=
  match text.takeWhile (· != '}'), text.dropWhile (· != '}') with
  | c :: expression, _ :: after => some (c :: expression, after)
  | _, _ => none

/-- The expression of an interpolation that starts at the front of a text, and the text
    after it. -/
def interpolation? : List Char → Option (List Char × List Char)
  | '#' :: '\x7b' :: text => braceExpression text
  | _ => none

/-- Expands the interpolations of a literal with the given quote; the fuel is the length of
    the literal. -/
def spliceWith (quote : Char) : Nat → List Char → List Char
  | 0, text => text
  | _ + 1, [] => []
  | fuel + 1, c :: rest =>
      match interpolation? (c :: rest) with
      | some (expression, after) =>
          quote :: (" + (".toList ++ expression ++ ") + ".toList) ++
            quote :: spliceWith quote fuel after
      | none =>
          if c == '\\' then
            match interpolation? rest with
            | some (expression, after) =>
                "\\#\x7b".toList ++ expression ++ '}' :: spliceWith quote fuel after
            | none => c :: spliceWith quote fuel rest
          else c :: spliceWith quote fuel rest

/-- Expands the interpolations of a literal with the given quote. -/
def splice (quote : Char) (literal : List Char) : List Char :=
  spliceWith quote literal.length literal

/-- Expands the interpolations of every literal of a value; the fuel is the length of the
    value. -/
def interpolateWith : Nat → List Char → List Char
  | 0, text => text
  | _ + 1, [] => []
  | fuel + 1, c :: rest =>
      if Text.isQuote c then
        match literalRest c rest with
        | some (body, after) => splice c (c :: body) ++ interpolateWith fuel after
        | none => c :: interpolateWith fuel rest
      else c :: interpolateWith fuel rest

/-- Expands the interpolations of every literal of a value. -/
def interpolate (value : List Char) : List Char := interpolateWith value.length value

end Stencil.Attribute
