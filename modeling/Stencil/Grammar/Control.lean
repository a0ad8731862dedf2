import Stencil.Grammar.RawText

/-! # Control statements and other lines with a head

    Code, loops, switches, comments, document types and filters, each with the
    body that it takes. -/

namespace Stencil.Parse

/-- Reads a line of text. -/
def textLine (template : Template) : Parse Draft := do
  let token ← expect template .text
  newNode token.line (.text token.value)

/-- Reads the body of a switch arm: a statement behind a colon, or an indented block. -/
def armBody (template : Template) (statement : Parse Draft) : Parse (Block BlockId Draft) := do
  let token ← peek template
  if token.kind == .colon then
    discard (advance template)
    let node ← statement
    newBlock token.line [node]
  else indentedBlock template statement

/-- Reads a switch. -/
def caseStatement (template : Template) (statement : Parse Draft) : Parse Draft := do
  let token ← expect template .case
  let body ← indentedBlock template statement
  newNode token.line (.case token.value) [body]

/-- Reads an arm of a switch. -/
def whenStatement (template : Template) (statement : Parse Draft) : Parse Draft := do
  let token ← expect template .when
  let body ← armBody template statement
  newNode token.line (.when token.value) [body]

/-- Reads the arm of a switch for all other cases. -/
def defaultStatement (template : Template) (statement : Parse Draft) : Parse Draft := do
  let token ← expect template .default
  let body ← armBody template statement
  newNode token.line (.when "default") [body]

/-- The number of line breaks from an offset on; the fuel bounds it. -/
def newlinesFrom (template : Template) : Nat → Nat → Parse Nat
  | 0, _ => throw ⟨.exhausted, {}⟩
  | fuel + 1, offset => do
      if (← peekAt template offset).kind == .newline then
        newlinesFrom template fuel (offset + 1)
      else return offset

/-- The kind of node that a code token makes. -/
def codeKind (token : Token) : Kind BlockId :=
  match token.lexeme with
  | .code value buffer escape => .code value buffer escape
  | lexeme => .code lexeme.value false false

/-- Reads a line of code.  It takes a body when the first token after any line breaks opens
    one. -/
def codeStatement (template : Template) (statement : Parse Draft) : Parse Draft := do
  let token ← expect template .code
  let breaks ← newlinesFrom template (← tokenBound) 0
  if (← peekAt template breaks).kind == .indent then
    skip template breaks
    let body ← indentedBlock template statement
    newNode token.line (codeKind token) [body]
  else newNode token.line (codeKind token)

/-- The kind of node that a loop head makes. -/
def eachKind (token : Token) : Kind BlockId :=
  match token.lexeme with
  | .each item key source => .each source item key
  | lexeme => .each "" lexeme.value Form.defaultKey

/-- Reads a loop, and the block for an empty source when an `else` follows. -/
def eachStatement (template : Template) (statement : Parse Draft) : Parse Draft := do
  let token ← expect template .each
  let body ← indentedBlock template statement
  let after ← peek template
  if after.kind == .code && after.value == "else" then
    discard (advance template)
    let alternative ← indentedBlock template statement
    newNode token.line (eachKind token) [body, alternative]
  else newNode token.line (eachKind token) [body]

/-- Whether a comment reaches the output. -/
def isBuffered (token : Token) : Bool :=
  match token.lexeme with
  | .comment _ buffer => buffer
  | _ => true

/-- Reads a comment, with its body if it has one. -/
def commentStatement (template : Template) (statement : Parse Draft) : Parse Draft := do
  let token ← expect template .comment
  if ← isAt template .indent then
    let body ← indentedBlock template statement
    newNode token.line (.blockComment token.value (isBuffered token)) [body]
  else newNode token.line (.comment token.value (isBuffered token))

/-- Reads a document type. -/
def doctypeStatement (template : Template) : Parse Draft := do
  let token ← expect template .doctype
  newNode token.line (.doctype (if token.value.isEmpty then none else some token.value))

/-- The attributes of a token. -/
def attributesOf (token : Token) : Attributes :=
  match token.lexeme with
  | .attrs list _ => list
  | _ => .empty

/-- Reads a filter with its raw body. -/
def filterStatement (template : Template) : Parse Draft := do
  let token ← expect template .filter
  let after ← peek template
  let attributes ←
    if after.kind == .attrs then
      discard (advance template)
      pure ((attributesOf after).mapValues Attribute.value)
    else pure .empty
  let body ← rawBlock template
  newNode token.line (.filter token.value attributes) [body]

/-- Reads a `yield` marker. -/
def yieldStatement (template : Template) : Parse Draft := do
  let token ← expect template .yield
  let mark ← newBlock token.line [] { isYield := true }
  return .ofBlock mark

end Stencil.Parse
