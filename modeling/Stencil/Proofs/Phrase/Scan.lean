import Stencil.Proofs.Phrase.Basic

/-! # Scanning — the phrases that a template is written with

    The grammar is read here once more, for the phrases alone: which ones stand in
    a text is a matter of its tokens, and of nothing that is composed on the way.
    A scan has only the lexer and the width of the outermost raw body to go by
    (`Cursor`).  A reader of tokens is taken over from the grammar (`Scan.of`). -/

namespace Stencil

/-- Where a reader of tokens stands. -/
structure Cursor where
  lexer : Lexer
  /-- The indentation width of the outermost open raw body. -/
  rawBase : Option Nat := none

/-- Enters a raw body. -/
def Cursor.enterRaw (base : Nat) (cursor : Cursor) : Cursor := { cursor with rawBase := some base }

/-- Leaves a raw body that lines are indented by `width` in. -/
def Cursor.leaveRaw (width : Nat) (cursor : Cursor) : Cursor :=
  if cursor.rawBase = some width then { cursor with rawBase := none } else cursor

/-- A reader of phrases. -/
abbrev Scan := StateT Cursor Option

namespace Scan

open Parse (OpenElement)

variable {α : Type}

/-- A template of which nothing is known. -/
def blank : Template where
  config := {}
  filename := none
  owner := 0
  lineage := []
  compose := fun _ => throw ⟨.exhausted, {}⟩

/-- What a reader of tokens gives, whatever is composed. -/
def of (reader : Template → Parse α) : Scan α := fun cursor =>
  match reader blank { lexer := cursor.lexer, rawBase := cursor.rawBase, assembly := {} } with
  | .ok result after => some (result, ⟨after.lexer, after.rawBase⟩)
  | .error _ _ => none

/-- Takes a token off. -/
def drop : Scan Unit := of fun template => discard (Parse.advance template)

/-- Takes the end of a body off. -/
def outdent : Scan Unit := of fun template => discard (Parse.expect template .outdent)

/-- A number of steps that no loop over the tokens left exceeds. -/
def tokenBound : Scan Nat := of fun _ => Parse.tokenBound

/-! ## Bodies -/

section Bodies

variable (statement : Scan Phrase)

/-- Statements, with line breaks between them, up to a token of a kind. -/
def statementsWith (stop : TokenKind) : Nat → Scan (List Phrase)
  | 0 => failure
  | fuel + 1 => do
      let token ← of Parse.peek
      if token.kind == stop then return []
      else if token.kind == .newline then
        drop
        statementsWith stop fuel
      else
        let phrase ← statement
        let phrases ← statementsWith stop fuel
        return phrase :: phrases

/-- Statements, with line breaks between them, up to a token of a kind. -/
def statements (stop : TokenKind) : Scan (List Phrase) := do
  statementsWith statement stop (← tokenBound)

/-- The statements of an indented body. -/
def indented : Scan (List Phrase) := do
  let _ ← of (Parse.expect · .indent)
  let phrases ← statements statement .outdent
  outdent
  return phrases

/-- An indented body. -/
def body : Scan Phrase := return .make (.body {}) (← indented statement)

end Bodies

/-- The lines of a raw body, `deeper` giving those of a body inside it. -/
def rawLinesWith (deeper : Scan (List Phrase)) (indent : Nat) : Nat → Scan (List Phrase)
  | 0 => failure
  | fuel + 1 => do
      let token ← of Parse.peek
      match token.kind with
      | .outdent => return []
      | .newline =>
          drop
          rawLinesWith deeper indent fuel
      | .indent =>
          let lines ← deeper
          let phrases ← rawLinesWith deeper indent fuel
          return .make .rawBody lines :: phrases
      | _ =>
          let line ← of Parse.advance
          let text := String.ofList (List.replicate indent ' ') ++ line.value
          let phrases ← rawLinesWith deeper indent fuel
          return .make (.node (.text text)) [] :: phrases

/-- The lines of an indented raw body. -/
def rawBodyWith : Nat → Scan (List Phrase)
  | 0 => failure
  | fuel + 1 => do
      let token ← of (Parse.expect · .indent)
      let width := Parse.indentWidth token
      let base := (← get).rawBase.getD width
      modify (Cursor.enterRaw base)
      let lines ← rawLinesWith (rawBodyWith fuel) (width - base) (← tokenBound)
      modify (Cursor.leaveRaw width)
      outdent
      return lines

/-- The lines of a raw body, taken as they stand until its end. -/
def rawBody : Scan (List Phrase) := do
  of fun _ => Parse.setMode .raw
  let lines ← rawBodyWith (← tokenBound)
  of fun _ => Parse.setMode .markup
  return lines

/-! ## Control statements and other lines with a head -/

section Lines

variable (statement : Scan Phrase)

/-- A line of text. -/
def textLine : Scan Phrase := do
  let token ← of (Parse.expect · .text)
  return .make (.node (.text token.value)) []

/-- The body of a switch arm: a statement behind a colon, or an indented block. -/
def armBody : Scan Phrase := do
  let token ← of Parse.peek
  if token.kind == .colon then
    drop
    return .make (.body {}) [← statement]
  else body statement

/-- A switch. -/
def caseStatement : Scan Phrase := do
  let token ← of (Parse.expect · .case)
  return .make (.node (.case token.value)) [← body statement]

/-- An arm of a switch. -/
def whenStatement : Scan Phrase := do
  let token ← of (Parse.expect · .when)
  return .make (.node (.when token.value)) [← armBody statement]

/-- The arm of a switch for all other cases. -/
def defaultStatement : Scan Phrase := do
  let _ ← of (Parse.expect · .default)
  return .make (.node (.when "default")) [← armBody statement]

/-- The kind of node that a code token makes. -/
def codeKind (token : Token) : Kind Empty :=
  match token.lexeme with
  | .code value buffer escape => .code value buffer escape
  | lexeme => .code lexeme.value false false

/-- A line of code, with its body if it has one. -/
def codeStatement : Scan Phrase := do
  let token ← of (Parse.expect · .code)
  let bound ← tokenBound
  let breaks ← of (Parse.newlinesFrom · bound 0)
  let after ← of (Parse.peekAt · breaks)
  if after.kind == .indent then
    of (Parse.skip · breaks)
    return .make (.node (codeKind token)) [← body statement]
  else return .make (.node (codeKind token)) []

/-- The kind of node that a loop head makes. -/
def eachKind (token : Token) : Kind Empty :=
  match token.lexeme with
  | .each item key source => .each source item key
  | lexeme => .each "" lexeme.value Form.defaultKey

/-- The block for an empty source, when an `else` follows a loop. -/
def elseBody : Scan (List Phrase) := do
  let after ← of Parse.peek
  if after.kind == .code && after.value == "else" then
    drop
    return [← body statement]
  else return []

/-- A loop, and the block for an empty source. -/
def eachStatement : Scan Phrase := do
  let token ← of (Parse.expect · .each)
  let content ← body statement
  let alternative ← elseBody statement
  return .make (.node (eachKind token)) (content :: alternative)

/-- A comment, with its body if it has one. -/
def commentStatement : Scan Phrase := do
  let token ← of (Parse.expect · .comment)
  if ← of (Parse.isAt · .indent) then
    return .make (.node (.blockComment token.value (Parse.isBuffered token))) [← body statement]
  else return .make (.node (.comment token.value (Parse.isBuffered token))) []

/-- A document type. -/
def doctypeStatement : Scan Phrase := do
  let token ← of (Parse.expect · .doctype)
  return .make (.node (.doctype (if token.value.isEmpty then none else some token.value))) []

/-- A filter with its raw body. -/
def filterStatement : Scan Phrase := do
  let token ← of (Parse.expect · .filter)
  let after ← of Parse.peek
  let attributes ←
    if after.kind == .attrs then
      drop
      pure ((Parse.attributesOf after).mapValues Attribute.value)
    else pure .empty
  return .make (.node (.filter token.value attributes)) [.make (.body {}) (← rawBody)]

/-- A `yield` marker. -/
def yieldStatement : Scan Phrase := do
  let _ ← of (Parse.expect · .yield)
  return .make (.body { isYield := true }) []

end Lines

/-! ## Elements -/

section Elements

variable (statement : Scan Phrase)

/-- What stands on the line of an element after its attributes. -/
def lineContent : Scan (List Phrase) := do
  let token ← of Parse.peek
  match token.kind with
  | .text => return [← textLine]
  | .code => return [← codeStatement statement]
  | .colon =>
      drop
      return [.make (.body {}) [← statement]]
  | _ => return []

/-- The indented body of an element, if it has one. -/
def elementBody (textOnly : Bool) : Scan (List Phrase) := do
  if ← of (Parse.isAt · .indent) then
    if textOnly then return [.make (.body { textOnly := true }) (← rawBody)]
    else return [← body statement]
  else return []

/-- What follows the name of an element: the element with its attributes, and what is in it. -/
def elementParts (element : Element) : Scan (Element × List Phrase) := do
  let element ← of (Parse.readAttributes · element)
  let dot ← of Parse.takeDot
  let content ← lineContent statement
  of Parse.skipNewlines
  let element := { element with textOnly := Parse.hasRawBody element dot }
  let own ← elementBody statement element.textOnly
  return (element, content ++ own)

/-- An element with everything that follows its name. -/
def elementWith (role : Role) (element : Element) : Scan Phrase := do
  let (element, parts) ← elementParts statement element
  return .make (.element element role) parts

/-- A tag. -/
def tagStatement : Scan Phrase := do
  let token ← of (Parse.expect · .tag)
  let selfClosing := match token.lexeme with
    | .tag _ selfClosing => selfClosing
    | _ => false
  elementWith statement (.tag false) { name := token.value, selfClosing }

/-- A tag whose name is an expression. -/
def interpolatedStatement : Scan Phrase := do
  let token ← of (Parse.expect · .interpolation)
  elementWith statement (.tag true) { name := token.value }

/-- A mixin call. -/
def callStatement : Scan Phrase := do
  let token ← of (Parse.expect · .call)
  elementWith statement (.call (Parse.argsOf token)) { name := token.value }

/-- A shorthand for an identifier or a class, made that of a `div`. -/
def shorthandStatement : Scan Phrase := do
  let token ← of Parse.advance
  of fun _ => Parse.defer [⟨token.line, .tag "div" false⟩, token]
  statement

end Elements

/-! ## Composition -/

section Composition

variable (statement : Scan Phrase)

/-- The name of a layout. -/
def extendsStatement : Scan Phrase := do
  let token ← of (Parse.expect · .extends)
  return .make (.extends token.value) []

/-- The content below the name of an included template. -/
def includedContent : Scan (List Phrase) := do
  if ← of (Parse.isAt · .indent) then return [← body statement]
  else return []

/-- The name of an included template, with the content below the statement. -/
def includeStatement : Scan Phrase := do
  let token ← of (Parse.expect · .include)
  let content ← includedContent statement
  return .make (.include token.value) content

/-- The content of a named block: an indented body, or an empty literal. -/
def namedContent : Scan Phrase := do
  if ← of (Parse.isAt · .indent) then body statement
  else return .make (.body {}) [.make (.node (.literal "")) []]

/-- A named block. -/
def blockStatement : Scan Phrase := do
  let token ← of (Parse.expect · .block)
  let content ← namedContent statement
  return .make (.named (Parse.trimmedTarget token.value) (Parse.modeOf token)) [content]

/-- A mixin definition; without a body it is a call. -/
def mixinStatement : Scan Phrase := do
  let token ← of (Parse.expect · .mixin)
  let args := match token.lexeme with
    | .mixin _ args => args
    | _ => none
  if ← of (Parse.isAt · .indent) then
    return .make (.mixin token.value args) [← body statement]
  else return .make (.node (.mixin { name := token.value } args true)) []

end Composition

/-! ## Statements -/

/-- A statement, given a reader for the statements inside it. -/
def statementStep (inner : Scan Phrase) : Scan Phrase := do
  let token ← of Parse.peek
  match token.kind with
  | .tag => tagStatement inner
  | .mixin => mixinStatement inner
  | .block => blockStatement inner
  | .case => caseStatement inner
  | .when => whenStatement inner
  | .default => defaultStatement inner
  | .extends => extendsStatement
  | .include => includeStatement inner
  | .doctype => doctypeStatement
  | .filter => filterStatement
  | .comment => commentStatement inner
  | .text => textLine
  | .each => eachStatement inner
  | .code => codeStatement inner
  | .call => callStatement inner
  | .interpolation => interpolatedStatement inner
  | .yield => yieldStatement
  | .idName => shorthandStatement inner
  | .className => shorthandStatement inner
  | _ => failure

/-- A statement; the fuel bounds how deep statements lie inside one another. -/
def statementWith : Nat → Scan Phrase
  | 0 => failure
  | fuel + 1 => statementStep (statementWith fuel)

/-- The statements of a whole template. -/
def document : Scan (List Phrase) := do
  let bound ← tokenBound
  statements (statementWith (2 * bound)) .eos

end Scan

/-- The statements of a text, if it can be read. -/
def phrasesOf (config : Config) (text : String) : Option (List Phrase) :=
  (Scan.document.run { lexer := .ofSource text config.colons }).map Prod.fst

end Stencil
