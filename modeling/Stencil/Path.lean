import Stencil.Text.Blank

/-! # Template paths — slash-separated names of templates

    Templates are named by paths with `/` between the components.  Two
    spellings of a path are compared in normal form: no empty component, no
    `.`, and `..` only at the front of a relative path.  An empty relative
    path is `.`; exactly two slashes at the front stay two.

    A path that is opened keeps every `..`: what is above a directory shows
    only on the way. -/

namespace Stencil.Path

/-- The components of a path, between its slashes. -/
def components : List Char → List (List Char)
  | [] => [[]]
  | c :: rest =>
      if c == '/' then [] :: components rest
      else match components rest with
        | [] => [[c]]
        | first :: others => (c :: first) :: others

/-- Components joined by slashes. -/
def joinComponents : List (List Char) → List Char
  | [] => []
  | [last] => last
  | first :: rest => first ++ '/' :: joinComponents rest

/-- The slashes that a path keeps at its front: none, one, or exactly two. -/
def rootSlashes : List Char → List Char
  | '/' :: '/' :: '/' :: _ => ['/']
  | '/' :: '/' :: _ => ['/', '/']
  | '/' :: _ => ['/']
  | _ => []

/-- The components of a path that lead somewhere: neither empty nor `.`. -/
def steps (path : List Char) : List (List Char) :=
  (components path).filter fun component => component != [] && component != ['.']

/-- A path as it is opened: its steps, behind the slashes at its front. -/
def opened (path : List Char) : List Char :=
  let shown := rootSlashes path ++ joinComponents (steps path)
  if shown.isEmpty then ['.'] else shown

/-- Adds a component to the reversed components of a path in normal form. -/
def pushComponent (absolute : Bool) (reversed : List (List Char)) (component : List Char) :
    List (List Char) :=
  if component == [] || component == ['.'] then reversed
  else if component != ['.', '.'] then component :: reversed
  else match reversed with
    | [] => if absolute then [] else [component]
    | last :: others => if last == ['.', '.'] then component :: reversed else others

/-- The components of the normal form of a path. -/
def normalComponents (path : List Char) : List (List Char) :=
  ((components path).foldl (pushComponent (!(rootSlashes path).isEmpty)) []).reverse

/-- The normal form of a path. -/
def normalize (path : List Char) : List Char :=
  let normal := rootSlashes path ++ joinComponents (normalComponents path)
  if normal.isEmpty then ['.'] else normal

/-- The text before the last slash, that slash included. -/
def uptoLastSlash (path : List Char) : List Char := Text.dropEndWhile (· != '/') path

/-- The directory of a path: the text before the last slash without slashes at its end,
    except that a run of slashes stays as it is. -/
def directory (path : List Char) : List Char :=
  let head := uptoLastSlash path
  if head.all (· == '/') then head else Text.dropEndWhile (· == '/') head

/-- A path that is read from a directory: an absolute one stands for itself. -/
def join (base path : List Char) : List Char :=
  if path.head? == some '/' then path
  else if base.isEmpty || base.getLast? == some '/' then base ++ path
  else base ++ '/' :: path

/-- The last component of a path. -/
def fileName (path : List Char) : List Char := (path.reverse.takeWhile (· != '/')).reverse

/-- Whether a path has an extension: a dot in its last component after a character that is
    not a dot. -/
def hasExtension (path : List Char) : Bool :=
  ((fileName path).dropWhile (· == '.')).contains '.'

/-- The normal form of a path given as a string. -/
def normalizeString (path : String) : String := String.ofList (normalize path.toList)

end Stencil.Path
