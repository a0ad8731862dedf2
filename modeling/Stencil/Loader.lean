import Stencil.FileTree
import Stencil.Text.Quoted

/-! # Loaders — where templates come from

    A loader gives the text of a template by its path.  A table of templates
    compares paths in normal form; a file tree follows them. -/

namespace Stencil

/-- A source of templates. -/
inductive Loader where
  /-- Texts by path; the paths are in normal form. -/
  | table (templates : OrderedMap String String)
  /-- Files. -/
  | files (tree : FileTree)

/-- Why a loader gives no text. -/
inductive LoadFault where
  /-- There is no template at the path. -/
  | notFound (path : String)
  /-- What is at the path is no readable text. -/
  | unreadable (path : String) (reason : String)
  /-- No template can have the path. -/
  | invalidPath
deriving Repr, DecidableEq

namespace LoadFault

/-- What is wrong. -/
def text : LoadFault → String
  | notFound path => "template not found: " ++ path
  | unreadable path reason => "cannot read template " ++ path ++ ": " ++ reason
  | invalidPath => "embedded null byte"

end LoadFault

/-- Why a file cannot be read, as told for the path that was opened. -/
def FileProblem.reason (opened : String) : FileProblem → String
  | missing => "[Errno 2] No such file or directory: " ++ Text.quoted opened
  | directory => "[Errno 21] Is a directory: " ++ Text.quoted opened
  | notDirectory => "[Errno 20] Not a directory: " ++ Text.quoted opened
  | longName => "[Errno 36] File name too long: " ++ Text.quoted opened
  | encoding => "the text is not in UTF-8"
  | nullCharacter => "embedded null byte"

namespace Loader

/-- A table of templates; of two templates with one path the later wins. -/
def ofTemplates (templates : List (String × String)) : Loader :=
  .table (.ofList (templates.map fun template =>
    (Path.normalizeString template.1, template.2)))

/-- A loader that has no template. -/
def empty : Loader := .files {}

/-- The text of the template at a path. -/
def load (loader : Loader) (path : String) : Except LoadFault String :=
  match loader with
  | table templates =>
      match templates.get? (Path.normalizeString path) with
      | some text => .ok text
      | none => .error (.notFound path)
  | files tree =>
      match tree.read path with
      | .ok text => .ok text
      | .error .missing => .error (.notFound path)
      | .error .nullCharacter => .error .invalidPath
      | .error problem => .error (.unreadable path (problem.reason (tree.openedPath path)))

/-- Whether a table has a template at a path. -/
def contains (loader : Loader) (path : String) : Bool :=
  match loader with
  | table templates => templates.contains (Path.normalizeString path)
  | files tree => (tree.read path).toBool

/-- The paths of a table in ascending order. -/
def sortedPaths : Loader → List String
  | table templates => templates.keys.mergeSort fun a b => !decide (b < a)
  | files _ => []

/-- The display of a table of templates. -/
def display (loader : Loader) : String := "DictLoader(" ++ Text.quotedList loader.sortedPaths ++ ")"

end Loader

end Stencil
