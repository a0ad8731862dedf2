import Stencil.OrderedMap
import Stencil.Path
import Stencil.Text.Lines

/-! # File trees — templates in directories

    A file tree is a directory with the files below it.  A relative path is
    looked up from that directory, an absolute one from the top.  A path is
    followed one component at a time, so `..` leads to the directory above the
    one reached so far; empty components and `.` are skipped.  A path that is
    too long as a whole is not followed at all. -/

namespace Stencil

/-- Why a path does not lead to a text. -/
inductive FileProblem where
  /-- There is nothing at the path. -/
  | missing
  /-- The path leads to a directory. -/
  | directory
  /-- A file stands where a directory is needed. -/
  | notDirectory
  /-- The path, or a component of it, is too long. -/
  | longName
  /-- The file does not hold text in UTF-8. -/
  | encoding
  /-- The path holds a null character. -/
  | nullCharacter
deriving Repr, DecidableEq

/-- Files below a directory; places are listed from the top. -/
structure FileTree where
  /-- The directory that relative paths are taken from; when it is empty, that is the top. -/
  root : String := ""
  /-- The contents of the files, by their place. -/
  files : OrderedMap (List String) ByteArray := .empty

namespace FileTree

/-- The steps of a path. -/
def steps (path : String) : List String := (Path.steps path.toList).map String.ofList

/-- A path as it is opened, taken from the root. -/
def openedPath (tree : FileTree) (path : String) : String :=
  String.ofList (Path.opened (Path.join tree.root.toList path.toList))

/-- A file tree with the given files, whose paths are taken from the root. -/
def ofFiles (root : String) (files : List (String × ByteArray)) : FileTree where
  root := root
  files := .ofList (files.map fun file => (steps root ++ steps file.1, file.2))

/-- Whether a place is a directory: the way to the root or to a file leads through it. -/
def isDirectory (tree : FileTree) (place : List String) : Bool :=
  place.isPrefixOf (steps tree.root) ||
    tree.files.keys.any fun file => place.isPrefixOf file && place.length < file.length

/-- The greatest length of a component, in bytes. -/
def longestName : Nat := 255

/-- The greatest length of an opened path, in bytes. -/
def longestPath : Nat := 4095

/-- Follows steps from a directory to a file. -/
def follow (tree : FileTree) : List String → List String → Except FileProblem ByteArray
  | _, [] => .error .directory
  | place, step :: rest =>
      if step = ".." then follow tree place.dropLast rest
      else if step.utf8ByteSize > longestName then .error .longName
      else
        let place := place ++ [step]
        match tree.files.get? place with
        | some bytes => if rest.isEmpty then .ok bytes else .error .notDirectory
        | none => if tree.isDirectory place then follow tree place rest else .error .missing

/-- The text of the file at a path, with line endings as line feeds. -/
def read (tree : FileTree) (path : String) : Except FileProblem String := do
  let opened := tree.openedPath path
  if opened.toList.contains '\x00' then throw .nullCharacter
  if opened.utf8ByteSize > longestPath then throw .longName
  let bytes ← tree.follow [] (steps opened)
  match String.fromUTF8? bytes with
  | some text => return String.ofList (Text.normalizeNewlines text.toList)
  | none => throw .encoding

end FileTree

end Stencil
