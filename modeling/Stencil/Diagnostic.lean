/-! # Diagnostics — what is said about a failure

    A diagnostic about a template carries its place: the template's file name
    and a line, either of which may be unknown.  The message starts with the
    place when there is one. -/

namespace Stencil

/-- Where in a template something happened. -/
structure Place where
  line : Option Int := none
  filename : Option String := none
deriving Repr, DecidableEq

/-- What a diagnostic about a template is about. -/
inductive Concern where
  /-- The template as a whole. -/
  | general
  /-- Text that cannot be cut into tokens. -/
  | lexical
  /-- A token where the grammar wants another: the names of both, where known. -/
  | syntactic (expected actual : Option String)
  /-- A template that cannot be found, read or composed, with its path. -/
  | resolution (path : Option String)
deriving Repr, DecidableEq

/-- A failure as it is told to the caller. -/
inductive Diagnostic where
  /-- A failure without a place. -/
  | general (text : String)
  /-- A value that an operation does not take. -/
  | argument (text : String)
  /-- Something a statement needs was not given. -/
  | configuration (text : String) (line : Option Int)
  /-- A failure in a template. -/
  | template (concern : Concern) (text : String) (place : Place)
deriving Repr, DecidableEq

/-- Removes the colons at the end of a text. -/
def dropFinalColons (text : String) : String :=
  String.ofList (text.toList.reverse.dropWhile (· == ':')).reverse

/-- The file name and the line, each followed by a colon, as far as they are known. -/
def Place.parts (place : Place) : String :=
  (match place.filename with
    | some name => if name.isEmpty then "" else name ++ ":"
    | none => "") ++
  (match place.line with
    | some line => toString line ++ ":"
    | none => "")

/-- The start of a message: the place without its final colons and a space, or nothing. -/
def Place.header (place : Place) : String :=
  if place.parts.isEmpty then "" else dropFinalColons place.parts ++ " "

namespace Diagnostic

/-- The full message. -/
def message : Diagnostic → String
  | general text => text
  | argument text => text
  | configuration text line =>
      match line with
      | some line => if line = 0 then text else text ++ " (line " ++ toString line ++ ")"
      | none => text
  | template _ text place => place.header ++ text

/-- The diagnostic of a token that stands where another was wanted. -/
def mismatch (expected actual : String) (place : Place) : Diagnostic :=
  .template (.syntactic (some expected) (some actual))
    ("expected \"" ++ expected ++ "\", but got \"" ++ actual ++ "\"") place

end Diagnostic

end Stencil
