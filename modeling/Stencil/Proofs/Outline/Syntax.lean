import Stencil.Document

/-! # Outlines — the statement language as a data type

    An outline is a statement with the statements below it: elements, lines of
    text, conditions and `while` loops, `each` loops, switches with their arms,
    and comments.  The words in it carry the proof that they can stand where
    they stand, so every outline can be written down.

    An outline is written as rows: one line for each statement, behind as many
    units of indentation as the statement is deep (`print`).  What a reader
    should make of the lines is a tree (`tree`), with the line of every node in
    it. -/

namespace Stencil

/-! ## Words -/

/-- A text without line ends. -/
structure OneLine where
  text : String
  oneLine : ∀ c ∈ text.toList, c ≠ '\n' ∧ c ≠ '\r'

/-- A line of text that is not empty. -/
structure Content extends OneLine where
  nonempty : text.toList ≠ []

/-- The text of a comment: a dash at its front would be a mark of its own. -/
structure Note extends OneLine where
  unmarked : text.toList.head? ≠ some '-'

/-- An expression of the host language on one line. -/
structure Expression extends Content where
  trimmed : Text.trim text.toList = text.toList

/-- The expression of an arm, which a colon would end. -/
structure ArmExpression extends Expression where
  uncolonned : ':' ∉ text.toList

/-- A name of word characters. -/
structure WordName where
  text : String
  nonempty : text.toList ≠ []
  word : ∀ c ∈ text.toList, Text.isWord c = true

/-- The words that are statements by themselves, or elements with a raw body. -/
def reservedNames : List String :=
  ["yield", "doctype", "default", "block", "if", "unless", "else", "script", "style"]

/-- The name of an element that is read as one. -/
structure TagName extends WordName where
  free : text ∉ reservedNames

/-- The head of an `each` loop. -/
structure Loop where
  item : WordName
  key : Option WordName
  source : Expression

/-- The keywords whose statement is code with a test. -/
inductive TestWord where
  | ifTrue
  | ifFalse
  | whileTrue

/-- The keyword as it is written. -/
def TestWord.text : TestWord → String
  | ifTrue => "if"
  | ifFalse => "unless"
  | whileTrue => "while"

/-- The code that a keyword and its test stand for. -/
def TestWord.code (word : TestWord) (test : String) : String :=
  match word with
  | ifTrue => "if (" ++ test ++ ")"
  | ifFalse => "if (!(" ++ test ++ "))"
  | whileTrue => "while (" ++ test ++ ")"

/-! ## Rows -/

/-- What a line says apart from its indentation. -/
inductive Head where
  | tag (name : TagName)
  | text (content : Content)
  | code (word : TestWord) (test : Expression)
  | each (loop : Loop)
  | otherwise
  | case (subject : Expression)
  | when (value : ArmExpression)
  | default
  | comment (note : Note)

namespace Head

/-- The names of the variables of a loop. -/
def «variables» (loop : Loop) : List Char :=
  loop.item.text.toList ++
    match loop.key with
    | some key => ", ".toList ++ key.text.toList
    | none => []

/-- A line without its indentation. -/
def print : Head → List Char
  | tag name => name.text.toList
  | text content => "| ".toList ++ content.text.toList
  | code word test => word.text.toList ++ ' ' :: test.text.toList
  | each loop => "each ".toList ++ «variables» loop ++ " in ".toList ++ loop.source.text.toList
  | otherwise => "else".toList
  | case subject => "case ".toList ++ subject.text.toList
  | when value => "when ".toList ++ value.text.toList
  | default => "default".toList
  | comment note => "//".toList ++ note.text.toList

/-- The name of the key variable of a loop. -/
def keyName (loop : Loop) : String :=
  match loop.key with
  | some key => key.text
  | none => Form.defaultKey

/-- What a line is to a reader of tokens. -/
def lexeme : Head → Lexeme
  | tag name => .tag name.text false
  | text content => .bare .text content.text
  | code word test => .code (word.code test.text) false false
  | each loop => .each loop.item.text (keyName loop) loop.source.text
  | otherwise => .code "else" false false
  | case subject => .bare .case subject.text
  | when value => .bare .when value.text
  | default => .bare .default ""
  | comment note => .comment note.text true

end Head

/-- A unit of indentation: any positive number of tabs, or of spaces. -/
structure IndentUnit where
  style : IndentStyle
  width : Nat
  positive : 0 < width

/-- The indentation at a depth. -/
def IndentUnit.at (unit : IndentUnit) (depth : Nat) : List Char :=
  List.replicate (depth * unit.width) unit.style.char

/-- A line with its depth. -/
structure Row where
  depth : Nat
  head : Head

/-- A line as it is written. -/
def Row.print (unit : IndentUnit) (row : Row) : List Char := unit.at row.depth ++ row.head.print

/-- The text of a list of lines; `final` tells whether a line feed ends the last one. -/
def printRows (unit : IndentUnit) (final : Bool) : List Row → List Char
  | [] => []
  | [row] => row.print unit ++ if final then ['\n'] else []
  | row :: rows => row.print unit ++ '\n' :: printRows unit final rows

/-! ## Statements -/

/-- A statement with the statements below it.  A body that must not be empty is given as its
    first statement and the others. -/
inductive Outline where
  | tag (name : TagName) (children : List Outline)
  | text (content : Content)
  | code (word : TestWord) (test : Expression) (body : List Outline)
  /-- A loop; the alternative stands behind `else`, which is left out when it is empty. -/
  | each (loop : Loop) (first : Outline) (body alternative : List Outline)
  | case (subject : Expression) (first : Outline) (arms : List Outline)
  /-- An arm of a switch: one for a value, or the one for all others. -/
  | arm (value : Option ArmExpression) (first : Outline) (body : List Outline)
  | comment (note : Note) (body : List Outline)

namespace Outline

/-- The line of a statement. -/
def head : Outline → Head
  | tag name _ => .tag name
  | text content => .text content
  | code word test _ => .code word test
  | each loop _ _ _ => .each loop
  | case subject _ _ => .case subject
  | arm (some value) _ _ => .when value
  | arm none _ _ => .default
  | comment note _ => .comment note

mutual

/-- The lines below that of a statement at a depth. -/
def rowsBelow (depth : Nat) : Outline → List Row
  | tag _ children => rows (depth + 1) children
  | text _ => []
  | code _ _ body => rows (depth + 1) body
  | each _ first body alternative =>
      ⟨depth + 1, first.head⟩ :: rowsBelow (depth + 1) first ++ rows (depth + 1) body
        ++ match alternative with
          | [] => []
          | other :: others =>
              ⟨depth, .otherwise⟩ :: ⟨depth + 1, other.head⟩ :: rowsBelow (depth + 1) other
                ++ rows (depth + 1) others
  | case _ first arms =>
      ⟨depth + 1, first.head⟩ :: rowsBelow (depth + 1) first ++ rows (depth + 1) arms
  | arm _ first body =>
      ⟨depth + 1, first.head⟩ :: rowsBelow (depth + 1) first ++ rows (depth + 1) body
  | comment _ body => rows (depth + 1) body

/-- The lines of statements at a depth. -/
def rows (depth : Nat) : List Outline → List Row
  | [] => []
  | outline :: outlines =>
      ⟨depth, outline.head⟩ :: rowsBelow depth outline ++ rows depth outlines

end

/-- The text of statements. -/
def print (unit : IndentUnit) (final : Bool) (outlines : List Outline) : String :=
  String.ofList (printRows unit final (rows 0 outlines))

/-! ## Trees -/

mutual

/-- The number of lines of a statement. -/
def lines : Outline → Nat
  | tag _ children => 1 + linesAll children
  | text _ => 1
  | code _ _ body => 1 + linesAll body
  | each _ first body alternative =>
      1 + lines first + linesAll body
        + match alternative with
          | [] => 0
          | other :: others => 1 + lines other + linesAll others
  | case _ first arms => 1 + lines first + linesAll arms
  | arm _ first body => 1 + lines first + linesAll body
  | comment _ body => 1 + linesAll body

/-- The number of lines of statements. -/
def linesAll : List Outline → Nat
  | [] => 0
  | outline :: outlines => lines outline + linesAll outlines

end

/-- A body that starts on a line. -/
def bodyAt (line : Nat) (nodes : List Tree) : Tree := .mk line (.block () {}) nodes

/-- The body of a statement that has one only if there is something in it. -/
def bodyIfAny (line : Nat) : List Tree → List Tree
  | [] => []
  | node :: nodes => [bodyAt line (node :: nodes)]

mutual

/-- The tree of a statement that starts on a line. -/
def tree (line : Nat) : Outline → Tree
  | tag name children =>
      .mk line (.tag { name := name.text } false)
        [bodyAt (if children.isEmpty then 0 else line + 1) (trees (line + 1) children)]
  | text content => .mk line (.text content.text) []
  | code word test body =>
      .mk line (.code (word.code test.text) false false)
        (bodyIfAny (line + 1) (trees (line + 1) body))
  | each loop first body alternative =>
      let next := line + 1 + lines first
      let last := next + linesAll body
      .mk line (.each loop.source.text loop.item.text (Head.keyName loop))
        (bodyAt (line + 1) (tree (line + 1) first :: trees next body)
          :: match alternative with
            | [] => []
            | other :: others =>
                [bodyAt (last + 1)
                  (tree (last + 1) other :: trees (last + 1 + lines other) others)])
  | case subject first arms =>
      .mk line (.case subject.text)
        [bodyAt (line + 1) (tree (line + 1) first :: trees (line + 1 + lines first) arms)]
  | arm value first body =>
      .mk line (.when ((value.map fun value => value.text).getD "default"))
        [bodyAt (line + 1) (tree (line + 1) first :: trees (line + 1 + lines first) body)]
  | comment note body =>
      match body with
      | [] => .mk line (.comment note.text true) []
      | first :: others =>
          .mk line (.blockComment note.text true)
            [bodyAt (line + 1) (tree (line + 1) first :: trees (line + 1 + lines first) others)]

/-- The trees of statements that start on a line. -/
def trees (line : Nat) : List Outline → List Tree
  | [] => []
  | outline :: outlines => tree line outline :: trees (line + lines outline) outlines

end

/-- The tree of a template of statements. -/
def document (filename : Option String) (outlines : List Outline) : Tree :=
  .mk 1 (.block () { filename }) (trees 1 outlines)

end Outline

end Stencil
