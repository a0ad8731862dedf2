import Stencil.Form.Order

/-! # The lexer's state

    A lexer holds the text that is left, the line it is on, the widths of the
    open indentation levels and the tokens that are read but not yet given
    out.  Those wait in three queues: tokens put in by the reader of the
    stream, tokens looked at ahead of time, and the followers of the last scan.

    A failed step keeps the state it stopped in, so every operation returns a
    result together with the lexer after it. -/

namespace Stencil

/-- How lines are read. -/
inductive Mode where
  /-- Lines are statements. -/
  | markup
  /-- Lines are text, taken as they stand. -/
  | raw
deriving Repr, DecidableEq

/-- The character that a template is indented with. -/
inductive IndentStyle where
  | tabs
  | spaces
deriving Repr, DecidableEq

namespace IndentStyle

/-- The indentation character of a style. -/
def char : IndentStyle → Char
  | tabs => '\t'
  | spaces => ' '

/-- The name of a style in messages. -/
def name : IndentStyle → String
  | tabs => "tabs"
  | spaces => "spaces"

end IndentStyle

/-- The style that the first indented line settled, and that line. -/
structure IndentLock where
  style : IndentStyle
  line : Nat
deriving Repr, DecidableEq

/-- Why a lexer cannot go on. -/
inductive LexicalCause where
  /-- An indentation goes on with the other indentation character. -/
  | mixedIndentation
  /-- The parenthesis of an attribute list is never closed. -/
  | unterminatedAttributes
  /-- No form matches the text that is left. -/
  | unrecognised (text : String)
  /-- A token before the first one was asked for. -/
  | lookaheadDistance (distance : Int)
deriving Repr, DecidableEq

/-- A cause, and the line it was met on. -/
structure LexicalFault where
  cause : LexicalCause
  line : Nat
deriving Repr, DecidableEq

/-- A template in the middle of being cut into tokens. -/
structure Lexer where
  /-- The text that is left. -/
  input : List Char
  /-- The current line, counted from one. -/
  line : Nat := 1
  mode : Mode := .markup
  /-- Whether a colon separates name and value in attribute lists. -/
  colons : Bool := false
  /-- The widths of the open indentation levels, innermost first. -/
  levels : List Nat := []
  lock : Option IndentLock := none
  /-- Tokens put in by the reader of the stream; they come out first. -/
  deferred : List Token := []
  /-- Tokens looked at ahead of time. -/
  stash : List Token := []
  /-- Followers of the last scan. -/
  pending : List Token := []
deriving Repr, DecidableEq

namespace Lexer

/-- A lexer at the start of a source. -/
def ofSource (source : String) (colons : Bool := false) : Lexer :=
  { input := Text.normalizeNewlines source.toList, colons }

/-- The result of an operation, and the lexer after it. -/
abbrev Outcome (α : Type) := Except LexicalFault α × Lexer

/-- A token of the current line that carries a text alone. -/
def token (lexer : Lexer) (kind : TokenKind) (value : String := "") : Token :=
  .bare kind lexer.line value

/-- Gives out a token. -/
def emit (lexer : Lexer) (token : Token) : Outcome Token := (.ok token, lexer)

/-- Stops for a cause on the current line. -/
def fail (lexer : Lexer) (cause : LexicalCause) : Outcome Token :=
  (.error ⟨cause, lexer.line⟩, lexer)

/-- The number of waiting tokens that do not end the stream. -/
def countOpen (tokens : List Token) : Nat :=
  (tokens.filter fun token => token.kind != .eos).length

/-- A bound on the number of tokens before the end of the stream: taking a token lowers it
    unless that token ends the stream, and looking ahead never raises it. -/
def potential (lexer : Lexer) : Nat :=
  2 * lexer.input.length + lexer.levels.length + countOpen lexer.pending
    + countOpen lexer.stash + countOpen lexer.deferred

end Lexer

end Stencil
