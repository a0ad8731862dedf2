import Stencil.Attribute
import Stencil.Text.Quoted

/-! # Tokens — the units that template text is cut into

    A token is a lexeme on a line.  Most kinds of token carry a text alone;
    the others carry what their construct needs: an indentation its width, a
    tag its self-closing mark, a loop header its variables, and so on. -/

namespace Stencil

/-- How a named block combines with an earlier definition of it. -/
inductive BlockMode where
  | replace
  | append
  | prepend
deriving Repr, DecidableEq

/-- The name of a mode, as templates write it. -/
def BlockMode.name : BlockMode → String
  | replace => "replace"
  | append => "append"
  | prepend => "prepend"

/-- The kinds of token. -/
inductive TokenKind where
  | eos | newline | indent | outdent
  | extends | block | include | yield | mixin | call
  | code | each | case | when | default
  | doctype | tag | interpolation | idName | className | attrs | colon | filter | comment | text
deriving Repr, DecidableEq

namespace TokenKind

/-- Every kind of token. -/
def all : List TokenKind :=
  [eos, newline, indent, outdent, .extends, block, .include, .yield, .mixin, call, code, each,
   case, when, default, doctype, tag, interpolation, idName, className, attrs, colon, filter,
   comment, text]

/-- The name of a kind in messages. -/
def name : TokenKind → String
  | eos => "eos"
  | newline => "newline"
  | indent => "indent"
  | outdent => "outdent"
  | .extends => "extends"
  | block => "block"
  | .include => "include"
  | .yield => "yield"
  | .mixin => "mixin"
  | call => "call"
  | code => "code"
  | each => "each"
  | case => "case"
  | when => "when"
  | default => "default"
  | doctype => "doctype"
  | tag => "tag"
  | interpolation => "interpolation"
  | idName => "id"
  | className => "class"
  | attrs => "attrs"
  | colon => "colon"
  | filter => "filter"
  | comment => "comment"
  | text => "text"

/-- The name of a kind in displays of tokens. -/
def label (kind : TokenKind) : String := kind.name.toUpper

end TokenKind

/-- What a token says. -/
inductive Lexeme where
  /-- A kind that carries a text alone, or any kind made by hand. -/
  | bare (kind : TokenKind) (value : String)
  /-- A deeper line, with its indentation width. -/
  | indent (width : Nat)
  /-- An element name; `selfClosing` when a slash follows it. -/
  | tag (name : String) (selfClosing : Bool)
  /-- Host code; `buffer` writes its value to the output, `escape` escapes what is written. -/
  | code (text : String) (buffer escape : Bool)
  /-- A comment; one without `buffer` never reaches the output. -/
  | comment (text : String) (buffer : Bool)
  /-- The head of a named block. -/
  | block (name : String) (mode : BlockMode)
  /-- The head of a loop over `source`, with the names of its item and key. -/
  | each (item key source : String)
  /-- The head of a mixin definition, with its parameter text. -/
  | mixin (name : String) (args : Option String)
  /-- A mixin call, with its argument text. -/
  | call (name : String) (args : Option String)
  /-- An attribute list; `selfClosing` when a slash follows it. -/
  | attrs (list : Attributes) (selfClosing : Bool)
deriving Repr, DecidableEq

namespace Lexeme

/-- The kind of a lexeme. -/
def kind : Lexeme → TokenKind
  | bare kind _ => kind
  | indent _ => .indent
  | tag _ _ => .tag
  | code _ _ _ => .code
  | comment _ _ => .comment
  | block _ _ => .block
  | each _ _ _ => .each
  | .mixin _ _ => .mixin
  | call _ _ => .call
  | attrs _ _ => .attrs

/-- The main text of a lexeme. -/
def value : Lexeme → String
  | bare _ value => value
  | indent width => toString width
  | tag name _ => name
  | code text _ _ => text
  | comment text _ => text
  | block name _ => name
  | each name _ _ => name
  | .mixin name _ => name
  | call name _ => name
  | attrs _ _ => ""

end Lexeme

/-- A lexeme on the line it was read from. -/
structure Token where
  line : Int
  lexeme : Lexeme
deriving Repr, DecidableEq

namespace Token

/-- The kind of a token. -/
def kind (token : Token) : TokenKind := token.lexeme.kind

/-- The main text of a token. -/
def value (token : Token) : String := token.lexeme.value

/-- A token that carries a text alone. -/
def bare (kind : TokenKind) (line : Int) (value : String := "") : Token :=
  ⟨line, .bare kind value⟩

/-- A text cut to twenty characters, the last three of them dots when it is longer. -/
def abridge (text : String) : String :=
  if text.length > 20 then String.ofList (text.toList.take 17) ++ "..." else text

/-- The display of an attribute's name and value. -/
def displayAttribute (entry : String × Attribute) : String :=
  Text.quoted entry.1 ++ ": " ++
    match entry.2.value with
    | .flag => "True"
    | .text expression => Text.quoted expression

/-- The display of what a token carries. -/
def displayValue (token : Token) : String :=
  match token.lexeme with
  | .attrs list _ =>
      "\x7b" ++ String.intercalate ", " (list.entries.map displayAttribute) ++ "\x7d"
  | lexeme => Text.quoted (abridge lexeme.value)

/-- The compact display of a token. -/
def display (token : Token) : String :=
  "Token(" ++ token.kind.label ++ ", " ++ token.displayValue ++ ", " ++ toString token.line ++ ")"

end Token

end Stencil
