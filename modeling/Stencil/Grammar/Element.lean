import Stencil.Grammar.Control

/-! # Elements — tags, interpolated tags and mixin calls

    What follows the name is the same for all three: attribute lists and the
    shorthands for identifier and classes, a dot that makes the body raw text,
    content on the line, and an indented body. -/

namespace Stencil.Parse

/-- An element that is being read. -/
structure OpenElement where
  element : Element
  code : Option Draft := none
  body : Block BlockId Draft

/-- Elements whose body is raw text. -/
def rawElementNames : List String := ["script", "style"]

/-- A text between single quotes. -/
def singleQuoted (text : String) : String := "'" ++ text ++ "'"

/-- Sets every attribute of a list. -/
def setAttributes (element : Element) (list : Attributes) : Element :=
  { element with attributes := element.attributes.insertAll list.entries }

/-- Whether a slash closes the element after an attribute list. -/
def closesElement (token : Token) : Bool :=
  match token.lexeme with
  | .attrs _ selfClosing => selfClosing
  | _ => false

/-- Reads attribute lists and shorthands in the order in which they stand; `classes` are the
    class shorthands so far, and the fuel bounds the number of tokens. -/
def readAttributesWith (template : Template) :
    Nat → List String → Element → Parse Element
  | 0, _, _ => throw ⟨.exhausted, {}⟩
  | fuel + 1, classes, element => do
      let token ← peek template
      match token.kind with
      | .idName =>
          discard (advance template)
          readAttributesWith template fuel classes
            (element.setAttribute "id" { value := .text (singleQuoted token.value) })
      | .className =>
          discard (advance template)
          let classes := classes ++ [token.value]
          readAttributesWith template fuel classes (element.setAttribute "class"
            { value := .text (singleQuoted (String.intercalate " " classes)) })
      | .attrs =>
          discard (advance template)
          let element := setAttributes element (attributesOf token)
          readAttributesWith template fuel classes
            { element with selfClosing := element.selfClosing || closesElement token }
      | _ => return element

/-- Reads attribute lists and shorthands. -/
def readAttributes (template : Template) (element : Element) : Parse Element := do
  readAttributesWith template (← tokenBound) [] element

/-- Takes the dot that makes a body raw text, if it is next. -/
def takeDot (template : Template) : Parse Bool := do
  let token ← peek template
  if token.kind == .text && token.value == "." then
    discard (advance template)
    return true
  else return false

/-- Reads what stands on the line of an element after its attributes: a text, code, or a
    statement behind a colon. -/
def readLineContent (template : Template) (statement : Parse Draft) (opened : OpenElement) :
    Parse OpenElement := do
  let token ← peek template
  match token.kind with
  | .text =>
      let text ← textLine template
      return { opened with body := { opened.body with nodes := opened.body.nodes ++ [text] } }
  | .code => return { opened with code := some (← codeStatement template statement) }
  | .colon =>
      discard (advance template)
      let node ← statement
      return { opened with body := ← newBlock token.line [node] }
  | _ => return opened

/-- Whether a script is of another type than the one whose body is raw text. -/
def isForeignScript (element : Element) : Bool :=
  element.name == "script" &&
    match element.attribute? "type" with
    | some (.text value) => Text.stripQuotes value.toList != "text/javascript".toList
    | _ => false

/-- Whether the body of an element is raw text; `dot` tells whether a dot demands it. -/
def hasRawBody (element : Element) (dot : Bool) : Bool :=
  dot || ((element.textOnly || rawElementNames.contains element.name)
    && !isForeignScript element)

/-- Puts an indented body behind the content on the line. -/
def joinBody (opened : OpenElement) (body : Block BlockId Draft) : OpenElement :=
  if opened.body.nodes.isEmpty then { opened with body }
  else
    let props := opened.body.props
    { opened with
      body :=
        { opened.body with
          nodes := opened.body.nodes ++ body.nodes
          props := { props with textOnly := props.textOnly || body.props.textOnly } } }

/-- Reads the indented body of an element, if it has one. -/
def readBody (template : Template) (statement : Parse Draft) (opened : OpenElement) :
    Parse OpenElement := do
  if ← isAt template .indent then
    if opened.element.textOnly then
      let body ← rawBlock template
      return joinBody opened { body with props := { body.props with textOnly := true } }
    else return joinBody opened (← indentedBlock template statement)
  else return opened

/-- Reads everything that follows the name of an element. -/
def readElement (template : Template) (statement : Parse Draft) (element : Element) :
    Parse OpenElement := do
  let body ← newBlock 0
  let element ← readAttributes template element
  let dot ← takeDot template
  let opened ← readLineContent template statement { element, body }
  skipNewlines template
  let element := { opened.element with textOnly := hasRawBody opened.element dot }
  readBody template statement { opened with element }

/-- Reads a tag. -/
def tagStatement (template : Template) (statement : Parse Draft) : Parse Draft := do
  let token ← expect template .tag
  let selfClosing := match token.lexeme with
    | .tag _ selfClosing => selfClosing
    | _ => false
  let opened ← readElement template statement { name := token.value, selfClosing }
  newNode token.line (.tag opened.element false) [opened.body] opened.code

/-- Reads a tag whose name is an expression. -/
def interpolatedStatement (template : Template) (statement : Parse Draft) : Parse Draft := do
  let token ← expect template .interpolation
  let opened ← readElement template statement { name := token.value }
  newNode token.line (.tag opened.element true) [opened.body] opened.code

/-- The parameter or argument text of a mixin token. -/
def argsOf (token : Token) : Option String :=
  match token.lexeme with
  | .mixin _ args => args
  | .call _ args => args
  | _ => none

/-- Reads a mixin call; an empty body counts as none. -/
def callStatement (template : Template) (statement : Parse Draft) : Parse Draft := do
  let token ← expect template .call
  let opened ← readElement template statement { name := token.value }
  let body := if opened.body.nodes.isEmpty then [] else [opened.body]
  newNode token.line (.mixin opened.element (argsOf token) true) body opened.code

/-- Makes a shorthand for an identifier or a class the shorthand of a `div`. -/
def shorthandStatement (template : Template) (statement : Parse Draft) : Parse Draft := do
  let token ← advance template
  defer [⟨token.line, .tag "div" false⟩, token]
  statement

end Stencil.Parse
