import Stencil.Grammar.Control
import Stencil.Node.IncludePoint

/-! # Composition — layouts, includes, named blocks and mixins

    A template may extend a layout, whose tree then takes the place of its own,
    and include other templates, whose trees are put where the statement
    stands.  Named blocks and mixins are shared: with a layout by way of the
    registry, with an include by way of the mixins. -/

namespace Stencil.Parse

/-- The channel of the records about composition. -/
def compositionChannel : String := "parsing.composition"

/-- Takes white space off both ends of a path. -/
def trimmedTarget (target : String) : String := String.ofList (Text.trim target.toList)

/-- The path of a target named in a template: with the configured extension if it has none,
    taken from the directory of the template, in normal form. -/
def resolvePath (extension filename target : String) : String :=
  let target := Text.trim target.toList
  let target := if Path.hasExtension target then target else target ++ extension.toList
  String.ofList (Path.normalize (Path.join (Path.directory filename.toList) target))

/-- Refuses a path that leads back to the template or to one it was reached from. -/
def checkCycle (template : Template) (path : String) (line : Int) : Parse Unit := do
  if template.lineage.contains path then fail template (.cycle path) line

/-- Loads the template at a path. -/
def load (template : Template) (path : String) (line : Int) : Parse String :=
  match template.config.activeLoader.load path with
  | .ok text => return text
  | .error fault => fail template (.load fault path) line

/-- Reads an `extends` statement: the layout is loaded now and read after the template. -/
def extendsStatement (template : Template) : Parse Draft := do
  let token ← expect template .extends
  match template.filename with
  | none => fail template .unnamedExtends token.line
  | some filename =>
      if (← get).layout.isSome then
        fail template (.duplicateExtends (trimmedTarget token.value)) token.line
      let path := resolvePath template.config.extension filename token.value
      checkCycle template path token.line
      tell compositionChannel (filename ++ " extends " ++ path)
      let text ← load template path token.line
      modify fun progress =>
        { progress with layout := some { extendedBy := filename, path, text } }
      newNode token.line (.literal "")

/-- Whether a path is that of a template, by its extension. -/
def isTemplatePath (extension path : String) : Bool := extension.toList.isSuffixOf path.toList

/-- Reads the inclusion of a file that is no template: its text is taken as it is. -/
def includeLiteral (template : Template) (filename path : String) (line : Int) : Parse Draft := do
  tell compositionChannel (filename ++ " includes " ++ path ++ " as literal text")
  let text ← load template path line
  let token ← peek template
  if token.kind == .indent then fail template (.indentedLiteral path) token.line
  newNode line (.literal text)

/-- Composes an included template.  It works on a copy of the named blocks, so that nothing it
    defines reaches the including template, and on the same mixins. -/
def composeInclude (template : Template) (source : Source) : Assemble Composed := do
  let assembly ← get
  let (store, registry) := assembly.registry.snapshot assembly.store
  set { assembly with store, registry }
  let composed ← template.compose source
  modify fun after => { after with registry := assembly.registry }
  return composed

/-- Names the template that a tree comes from. -/
def nameRoot (path : String) (root : Block BlockId Draft) : Assemble (Block BlockId Draft) := do
  let assembly ← get
  let current := assembly.store.read root
  let named := { current with props := { current.props with filename := some path } }
  set { assembly with store := assembly.store.write named }
  return named

/-- The block of a tree that included content goes into. -/
def includeTarget (root : Block BlockId Draft) : Assemble (Block BlockId Draft) := do
  return Node.includePoint ((← get).store.resolveBlock root)

/-- Adds a node at the end of a block, wherever the block stands. -/
def pushInto (block : Block BlockId Draft) (node : Draft) : Assemble Unit :=
  modify fun assembly =>
    { assembly with
      store := assembly.store.setNodes block ((assembly.store.read block).nodes ++ [node]) }

/-- Reads the inclusion of a template, and puts the content below the statement into its tree. -/
def includeTemplate (template : Template) (statement : Parse Draft) (filename path : String)
    (line : Int) : Parse Draft := do
  checkCycle template path line
  tell compositionChannel (filename ++ " includes " ++ path)
  let text ← load template path line
  let composed ← assemble
    (composeInclude template { text, filename := some path, lineage := template.lineage })
  let root ← assemble (nameRoot path composed.root)
  if ← isAt template .indent then
    let target ← assemble (includeTarget root)
    let content ← indentedBlock template statement
    assemble (pushInto target (.ofBlock content))
  return .ofBlock root

/-- Reads an `include` statement. -/
def includeStatement (template : Template) (statement : Parse Draft) : Parse Draft := do
  let token ← expect template .include
  match template.filename with
  | none => fail template .unnamedInclude token.line
  | some filename =>
      let path := resolvePath template.config.extension filename token.value
      if isTemplatePath template.config.extension path then
        includeTemplate template statement filename path token.line
      else includeLiteral template filename path token.line

/-- The mode of a named block. -/
def modeOf (token : Token) : BlockMode :=
  match token.lexeme with
  | .block _ mode => mode
  | _ => .replace

/-- The content of a named block: an indented body, or an empty literal. -/
def namedContent (template : Template) (statement : Parse Draft) (line : Int) :
    Parse (Block BlockId Draft) := do
  if ← isAt template .indent then indentedBlock template statement
  else newBlock line [← newNode line (.literal "")]

/-- Defines a named block and gives the block to place. -/
def defineBlock (name : String) (block : Block BlockId Draft) (owner : Nat) :
    Assemble (Block BlockId Draft) := do
  let assembly ← get
  let defined := assembly.registry.define assembly.store name block owner
  set { assembly with store := defined.store, registry := defined.registry }
  return defined.block

/-- Reads a named block. -/
def blockStatement (template : Template) (statement : Parse Draft) : Parse Draft := do
  let token ← expect template .block
  let content ← namedContent template statement token.line
  let props := { content.props with mode := modeOf token, filename := template.filename }
  let block ← assemble
    (defineBlock (trimmedTarget token.value) { content with props } template.owner)
  return .ofBlock block

/-- Reads a mixin definition; without a body it is a call. -/
def mixinStatement (template : Template) (statement : Parse Draft) : Parse Draft := do
  let token ← expect template .mixin
  let args := match token.lexeme with
    | .mixin _ args => args
    | _ => none
  let element : Element := { name := token.value }
  if ← isAt template .indent then
    let body ← indentedBlock template statement
    let definition ← newNode token.line (.mixin element args false) [body]
    modifyAssembly fun assembly =>
      { assembly with mixins := assembly.mixins.insert token.value definition }
    return definition
  else newNode token.line (.mixin element args true)

end Stencil.Parse
