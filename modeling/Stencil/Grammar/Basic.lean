import Stencil.Composition.Registry
import Stencil.Config
import Stencil.Fault
import Stencil.Lexer.Stream
import Stencil.Log

/-! # Reading a template — state and tokens

    A template is read from its token stream into a tree.  What the templates
    of one composition share is the assembly: the contents of blocks, the named
    blocks, the mixins and the log.  The rest of the state belongs to one
    template. -/

namespace Stencil

/-- What the templates of a composition share. -/
structure Assembly where
  store : Store Draft := {}
  /-- The named blocks. -/
  registry : Registry Draft := .empty
  /-- The mixin definitions by name. -/
  mixins : OrderedMap String Draft := .empty
  /-- The number of templates whose reading has started. -/
  templates : Nat := 0
  /-- What was told so far, oldest first. -/
  log : List LogRecord := []
deriving DecidableEq

/-- A template to be read. -/
structure Source where
  text : String
  filename : Option String := none
  /-- The paths, in normal form, of the templates that led here. -/
  lineage : List String := []

/-- The paths that lead to a template, its own included. -/
def Source.path (source : Source) : List String :=
  (source.filename.map Path.normalizeString).toList ++ source.lineage

/-- A layout that a template extends. -/
structure Layout where
  /-- The file name of the template that extends it. -/
  extendedBy : String
  path : String
  text : String
deriving DecidableEq

/-- The outcome of a template: its tree, and the path of its layout. -/
structure Composed where
  root : Block BlockId Draft
  layout : Option String := none

/-- An action on the assembly. -/
abbrev Assemble := EStateM Fault Assembly

/-- What is fixed while a template is read. -/
structure Template where
  config : Config
  filename : Option String
  /-- The number that tells this template's definitions from those of others. -/
  owner : Nat
  /-- The paths, in normal form, that must not be loaded again. -/
  lineage : List String
  /-- Composes another template. -/
  compose : Source → Assemble Composed

/-- The state while a template is read. -/
structure Progress where
  lexer : Lexer
  /-- The indentation width of the outermost open raw body. -/
  rawBase : Option Nat := none
  /-- The layout that the template extends. -/
  layout : Option Layout := none
  assembly : Assembly

/-- A reader of some part of a template. -/
abbrev Parse := EStateM Fault Progress

namespace Parse

variable {α : Type}

/-- Does something with the assembly. -/
def assemble (action : Assemble α) : Parse α := fun progress =>
  match action progress.assembly with
  | .ok result assembly => .ok result { progress with assembly }
  | .error fault assembly => .error fault { progress with assembly }

/-- Changes the assembly. -/
def modifyAssembly (f : Assembly → Assembly) : Parse Unit :=
  modify fun progress => { progress with assembly := f progress.assembly }

/-- A new identity for a node. -/
def freshId : Parse BlockId := do
  let progress ← get
  modifyAssembly fun assembly => { assembly with store := assembly.store.taken }
  return progress.assembly.store.next

/-- A new block. -/
def newBlock (line : Int) (nodes : List Draft := []) (props : BlockProps := {}) :
    Parse (Block BlockId Draft) := do
  return { id := ← freshId, line, props, nodes }

/-- A new node that is no block, with the parts that are there. -/
def newNode (line : Int) (kind : Kind BlockId) (blocks : List (Block BlockId Draft) := [])
    (code : Option Draft := none) : Parse Draft := do
  return .make (← freshId) line kind (code.toList ++ blocks.map Node.ofBlock)

/-- Adds a record to the log. -/
def tell (channel message : String) : Parse Unit :=
  modifyAssembly fun assembly =>
    { assembly with
      log := assembly.log ++ [{ channel := channelName channel, level := .debug, message }] }

/-- Stops for a cause on a line. -/
def fail (template : Template) (cause : Cause) (line : Int) : Parse α :=
  throw ⟨cause, ⟨some line, template.filename⟩⟩

/-! ## Tokens -/

/-- The log record of an indentation style that was settled between two states of a lexer. -/
def lockRecords (before after : Lexer) : List LogRecord :=
  match before.lock, after.lock with
  | none, some lock =>
      [{ channel := channelName "lexer.scanners.structure", level := .debug,
         message := "indentation locked to " ++ lock.style.name ++ " on line "
           ++ toString lock.line }]
  | _, _ => []

/-- Does something with the lexer. -/
def onLexer (template : Template) (action : Lexer → Lexer.Outcome α) : Parse α :=
  fun progress =>
    let (result, lexer) := action progress.lexer
    let log := progress.assembly.log ++ lockRecords progress.lexer lexer
    let progress := { progress with lexer, assembly := { progress.assembly with log } }
    match result with
    | .ok value => .ok value progress
    | .error fault => .error (fault.inTemplate template.filename) progress

/-- The token with the given number of tokens before it, which stays where it is. -/
def peekAt (template : Template) (offset : Nat) : Parse Token :=
  onLexer template fun lexer => lexer.peekAt offset

/-- The next token, which stays where it is. -/
def peek (template : Template) : Parse Token := peekAt template 0

/-- Takes the next token. -/
def advance (template : Template) : Parse Token := onLexer template Lexer.advance

/-- Takes a number of tokens. -/
def skip (template : Template) : Nat → Parse Unit
  | 0 => return
  | count + 1 => do
      discard (advance template)
      skip template count

/-- Puts tokens in before the next one, behind those that were put in earlier. -/
def defer (tokens : List Token) : Parse Unit :=
  modify fun progress => { progress with lexer := tokens.foldl Lexer.defer progress.lexer }

/-- Switches the way in which lines are read. -/
def setMode (mode : Mode) : Parse Unit :=
  modify fun progress => { progress with lexer := { progress.lexer with mode } }

/-- Whether the next token is of a kind. -/
def isAt (template : Template) (kind : TokenKind) : Parse Bool := do
  return (← peek template).kind == kind

/-- Takes the next token, which has to be of a kind. -/
def expect (template : Template) (kind : TokenKind) : Parse Token := do
  let token ← peek template
  if token.kind == kind then advance template
  else fail template (.mismatch kind token.kind) token.line

/-- A number of steps that no loop over the tokens left exceeds. -/
def tokenBound : Parse Nat := return (← get).lexer.potential + 1

/-- Takes the line breaks at the front; the fuel bounds their number. -/
def skipNewlinesWith (template : Template) : Nat → Parse Unit
  | 0 => throw ⟨.exhausted, {}⟩
  | fuel + 1 => do
      if ← isAt template .newline then
        discard (advance template)
        skipNewlinesWith template fuel

/-- Takes the line breaks at the front. -/
def skipNewlines (template : Template) : Parse Unit := do
  skipNewlinesWith template (← tokenBound)

/-- Reads statements, with line breaks between them, up to a token of a kind; the fuel bounds
    the number of both. -/
def statementsWith (template : Template) (statement : Parse Draft) (stop : TokenKind) :
    Nat → Parse (List Draft)
  | 0 => throw ⟨.exhausted, {}⟩
  | fuel + 1 => do
      let token ← peek template
      if token.kind == stop then return []
      else if token.kind == .newline then
        discard (advance template)
        statementsWith template statement stop fuel
      else
        let node ← statement
        let nodes ← statementsWith template statement stop fuel
        return node :: nodes

/-- Reads statements, with line breaks between them, up to a token of a kind. -/
def statements (template : Template) (statement : Parse Draft) (stop : TokenKind) :
    Parse (List Draft) := do
  statementsWith template statement stop (← tokenBound)

/-- Reads an indented body of statements. -/
def indentedBlock (template : Template) (statement : Parse Draft) :
    Parse (Block BlockId Draft) := do
  let token ← expect template .indent
  let nodes ← statements template statement .outdent
  discard (expect template .outdent)
  newBlock token.line nodes

end Parse

end Stencil
