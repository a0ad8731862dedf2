import Stencil.Attribute
import Stencil.Attribute.Interpolation
import Stencil.Text.Blank

/-! # Attribute scanner — the text between the parentheses of an element

    The scanner reads an attribute list one character at a time.  A stack of
    states keeps the commas, quotes and equals signs of nested expressions
    inside the value they belong to; a comma or a line feed outside of them
    ends an attribute.

    The innermost state is the first of the stack, and the stack ends in the
    state `name`. -/

namespace Stencil.Attribute

/-- What the scanner is inside of. -/
inductive ScanState where
  /-- The name of an attribute. -/
  | name
  /-- A quoted part of a name. -/
  | quotedName
  /-- The value of an attribute. -/
  | value
  /-- Parentheses in a value. -/
  | expression
  /-- Brackets in a value. -/
  | array
  /-- Braces in a value. -/
  | object
  /-- A string literal in a value. -/
  | string
deriving Repr, DecidableEq

namespace ScanState

/-- Whether separators are part of the value text. -/
def isNested : ScanState → Bool
  | expression | array | object | string => true
  | name | quotedName | value => false

/-- Whether characters are collected for the name. -/
def isNaming : ScanState → Bool
  | name | quotedName => true
  | value | expression | array | object | string => false

/-- The state that an opening bracket leads to, if it opens a group. -/
def opened (bracket : Char) : ScanState → Option ScanState
  | value =>
      if bracket == '(' then some expression
      else if bracket == '[' then some array
      else if bracket == '\x7b' then some object
      else none
  | expression => if bracket == '(' then some expression else none
  | _ => none

/-- Whether a closing bracket ends the group of this state. -/
def isClosedBy (bracket : Char) : ScanState → Bool
  | expression => bracket == ')'
  | array => bracket == ']'
  | object => bracket == '}'
  | _ => false

end ScanState

/-- An attribute list in the middle of being read. -/
structure Scanner where
  /-- Whether a colon separates name and value like an equals sign. -/
  colons : Bool := false
  /-- The open states, innermost first. -/
  states : List ScanState := [.name]
  /-- The characters of the name so far. -/
  name : List Char := []
  /-- The characters of the value so far. -/
  value : List Char := []
  /-- The quote that ends the current string literal. -/
  quote : Char := '"'
  /-- The character before the next one, a colon that separates read as an equals sign. -/
  last : Option Char := none
  /-- Whether a bang stood before the equals sign. -/
  unescaped : Bool := false
  /-- The attributes read so far. -/
  attributes : Attributes := .empty
deriving Repr, DecidableEq

namespace Scanner

/-- The innermost state. -/
def state (scanner : Scanner) : ScanState := scanner.states.headD .name

/-- Opens a state. -/
def enter (scanner : Scanner) (state : ScanState) : Scanner :=
  { scanner with states := state :: scanner.states }

/-- Closes the innermost state. -/
def leave (scanner : Scanner) : Scanner := { scanner with states := scanner.states.tail }

/-- Adds a character to the name. -/
def pushName (scanner : Scanner) (c : Char) : Scanner :=
  { scanner with name := scanner.name ++ [c] }

/-- Adds a character to the value. -/
def pushValue (scanner : Scanner) (c : Char) : Scanner :=
  { scanner with value := scanner.value ++ [c] }

/-- Adds a character to the part that a state collects. -/
def push (scanner : Scanner) (state : ScanState) (c : Char) : Scanner :=
  if state.isNaming then scanner.pushName c else scanner.pushValue c

/-- The name under which an attribute is recorded: without quotes at its edges, then without
    bangs. -/
def recordedName (name : List Char) : List Char :=
  Text.dropAround (· == '!') (Text.stripQuotes name)

/-- The attribute of a trimmed name and a trimmed value. -/
def attributeOf (name value : List Char) (unescaped : Bool) : Attribute where
  value := if value.isEmpty then .flag else .text (String.ofList (interpolate value))
  escaped := !(unescaped || name.head? == some '!')

/-- Ends the current attribute: records it unless its name is blank, and starts a new one. -/
def flush (scanner : Scanner) : Scanner :=
  let name := Text.trim scanner.name
  let value := Text.trim scanner.value
  { scanner with
    states := [.name], name := [], value := [], quote := '"', unescaped := false,
    attributes :=
      if name.isEmpty then scanner.attributes
      else scanner.attributes.insert (String.ofList (recordedName name))
        (attributeOf name value scanner.unescaped) }

/-- Reads a comma or a line feed. -/
def readSeparator (scanner : Scanner) (c : Char) : Scanner :=
  if scanner.state.isNested then scanner.pushValue c else scanner.flush

/-- Reads an equals sign, written as the given character. -/
def readEquals (scanner : Scanner) (written : Char) : Scanner :=
  match scanner.state with
  | .quotedName => scanner.pushName written
  | .name => { scanner with unescaped := scanner.last == some '!' }.enter .value
  | _ => scanner.pushValue written

/-- Reads an opening bracket. -/
def readOpening (scanner : Scanner) (c : Char) : Scanner :=
  let state := scanner.state
  match state.opened c with
  | some group => (scanner.enter group).push state c
  | none => scanner.push state c

/-- Reads a closing bracket. -/
def readClosing (scanner : Scanner) (c : Char) : Scanner :=
  let state := scanner.state
  if state.isClosedBy c then scanner.leave.push state c else scanner.push state c

/-- Reads a quote.  Quotes around a part of a name are dropped. -/
def readQuote (scanner : Scanner) (c : Char) : Scanner :=
  match scanner.state with
  | .name => scanner.enter .quotedName
  | .quotedName => scanner.leave
  | .string => (if c == scanner.quote then scanner.leave else scanner).pushValue c
  | _ => { scanner.enter .string with quote := c }.pushValue c

/-- The character that a written one is read as. -/
def meaning (colons : Bool) (written : Char) : Char :=
  if colons && written == ':' then '=' else written

/-- Reads one character. -/
def step (scanner : Scanner) (written : Char) : Scanner :=
  let c := meaning scanner.colons written
  let next :=
    if c == ',' || c == '\n' then scanner.readSeparator c
    else if c == '=' then scanner.readEquals written
    else if c == '(' || c == '[' || c == '\x7b' then scanner.readOpening c
    else if c == ')' || c == ']' || c == '}' then scanner.readClosing c
    else if Text.isQuote c then scanner.readQuote c
    else scanner.push scanner.state c
  { next with last := some c }

/-- Reads a text. -/
def feed (scanner : Scanner) (text : List Char) : Scanner := text.foldl step scanner

end Scanner

/-- The attributes of the text between the parentheses of a list. -/
def parseList (text : List Char) (colons : Bool := false) : Attributes :=
  (({ colons } : Scanner).feed text).flush.attributes

end Stencil.Attribute
