import Stencil.Diagnostic
import Stencil.Lexer.Basic
import Stencil.Loader

/-! # Faults — why a template cannot be read or composed

    A fault is a cause met at a place.  Causes are told apart by kind; their
    wording is given here and nowhere else. -/

namespace Stencil

/-- Why a template cannot be read or composed. -/
inductive Cause where
  /-- The text cannot be cut into tokens. -/
  | lexical (cause : LexicalCause)
  /-- One kind of token stands where another was wanted. -/
  | mismatch (expected actual : TokenKind)
  /-- No statement starts with this kind of token. -/
  | unexpected (kind : TokenKind)
  /-- A body below the inclusion of a file that is no template. -/
  | indentedLiteral (path : String)
  /-- A second layout for one template. -/
  | duplicateExtends (target : String)
  /-- A template leads back to itself or to one it was reached from. -/
  | cycle (path : String)
  /-- A template cannot be loaded. -/
  | load (fault : LoadFault) (path : String)
  /-- A layout is named in a template without a file name. -/
  | unnamedExtends
  /-- A template without a file name includes another. -/
  | unnamedInclude
  /-- The bound on the number of steps was met; no template does. -/
  | exhausted
deriving Repr, DecidableEq

/-- A cause at a place. -/
structure Fault where
  cause : Cause
  place : Place := {}
deriving Repr, DecidableEq

/-- What is told about a lexical cause. -/
def LexicalCause.text : LexicalCause → String
  | mixedIndentation => "Invalid indentation, you can use tabs or spaces but not both"
  | unterminatedAttributes => "unterminated attribute list"
  | unrecognised text => "unexpected input " ++ text
  | lookaheadDistance distance => "lookahead distance must be >= 1, got " ++ toString distance

/-- The diagnostic of a lexical cause at a place. -/
def LexicalCause.diagnostic (cause : LexicalCause) (place : Place) : Diagnostic :=
  match cause with
  | lookaheadDistance _ => .argument cause.text
  | _ => .template .lexical cause.text place

/-- The diagnostic of a failure to load a template at a place. -/
def LoadFault.diagnostic (fault : LoadFault) (path : String) (place : Place) : Diagnostic :=
  match fault with
  | invalidPath => .argument fault.text
  | _ => .template (.resolution (some path)) fault.text place

/-- The diagnostic of a fault. -/
def Fault.diagnostic (fault : Fault) : Diagnostic :=
  match fault.cause with
  | .lexical cause => cause.diagnostic fault.place
  | .mismatch expected actual => .mismatch expected.name actual.name fault.place
  | .unexpected kind =>
      .template (.syntactic none (some kind.name))
        ("unexpected token \"" ++ kind.name ++ "\"") fault.place
  | .indentedLiteral path =>
      .template (.syntactic (some "newline") (some "indent"))
        ("non-template include \"" ++ path ++ "\" cannot take an indented block") fault.place
  | .duplicateExtends target =>
      .template (.resolution (some target))
        "duplicate extends: a template can only extend one other template" fault.place
  | .cycle path =>
      .template (.resolution (some path)) ("cyclic include/extends: " ++ path) fault.place
  | .load cause path => cause.diagnostic path fault.place
  | .unnamedExtends =>
      .configuration "the \"filename\" option is required to extend templates" fault.place.line
  | .unnamedInclude =>
      .configuration "the \"filename\" option is required to use includes" fault.place.line
  | .exhausted => .general "the template does not end"

/-- A lexical fault in a template. -/
def LexicalFault.inTemplate (fault : LexicalFault) (filename : Option String) : Fault :=
  ⟨.lexical fault.cause, ⟨some fault.line, filename⟩⟩

/-- A failure to load a template that no other template asked for. -/
def LoadFault.alone (fault : LoadFault) (path : String) : Fault := ⟨.load fault path, {}⟩

end Stencil
