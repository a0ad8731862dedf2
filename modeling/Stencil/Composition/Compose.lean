import Stencil.Grammar.Statement
import Stencil.Node.Walk

/-! # Composing templates — a tree from a template and those it names

    A template without a layout gives the tree of its statements.  A template
    with a layout gives the layout's tree, which has taken in its named blocks;
    the mixins it defines outside of them go to the front. -/

namespace Stencil

/-- The channel of the records about whole templates. -/
def templateChannel : String := "parser"

/-- The identities of the nodes of a tree. -/
def identities (root : Draft) : List (Option BlockId) := root.walk.map Node.id?

/-- The mixin definitions that have no place in a tree. -/
def homelessMixins (mixins : OrderedMap String Draft) (root : Draft) : List Draft :=
  let placed := identities root
  mixins.values.filter fun mixin => !placed.contains mixin.id?

/-- What is told when mixin definitions are moved into a layout. -/
def hoistingText (count : Nat) (layout : Layout) : String :=
  "hoisting " ++ toString count ++ " mixin(s) from " ++ layout.extendedBy ++ " into "
    ++ layout.path

/-- Puts the mixin definitions without a place to the front of the layout's tree. -/
def hoistMixins (layout : Layout) (root : Block BlockId Draft) :
    Assemble (Block BlockId Draft) := do
  let assembly ← get
  let tree := Node.ofBlock (assembly.store.resolveBlock root)
  match homelessMixins assembly.mixins tree with
  | [] => return root
  | hoisted =>
      let current := assembly.store.read root
      let record : LogRecord :=
        { channel := channelName templateChannel, level := .debug,
          message := hoistingText hoisted.length layout }
      let filled := { current with nodes := hoisted ++ current.nodes }
      set { assembly with store := assembly.store.write filled, log := assembly.log ++ [record] }
      return filled

/-- Composes the layout of a template, with mixins of its own, and moves the template's mixin
    definitions into its tree. -/
def composeLayout (compose : Source → Assemble Composed) (source : Source) (layout : Layout) :
    Assemble (Block BlockId Draft) := do
  let mixins := (← get).mixins
  modify fun assembly => { assembly with mixins := .empty }
  let composed ← compose
    { text := layout.text, filename := some layout.path, lineage := source.path }
  modify fun assembly => { assembly with mixins }
  hoistMixins layout composed.root

/-- Reads the statements of a template, and what layout it extends. -/
def readStatements (config : Config) (compose : Source → Assemble Composed) (source : Source) :
    Assemble (List Draft × Option Layout) := fun assembly =>
  let template : Template :=
    { config, filename := source.filename, owner := assembly.templates, lineage := source.path,
      compose }
  let progress : Progress :=
    { lexer := .ofSource source.text config.colons,
      assembly := { assembly with templates := assembly.templates + 1 } }
  match Parse.document template progress with
  | .ok nodes after => .ok (nodes, after.layout) after.assembly
  | .error fault after => .error fault after.assembly

/-- A new root block for the tree of a template. -/
def newRoot (filename : Option String) (nodes : List Draft) :
    Assemble (Block BlockId Draft) := do
  let assembly ← get
  set { assembly with store := assembly.store.taken }
  return { id := assembly.store.next, line := 1, props := { filename }, nodes }

/-- Composes a template, given a way to compose those it names. -/
def composeStep (config : Config) (compose : Source → Assemble Composed) (source : Source) :
    Assemble Composed := do
  let (nodes, layout?) ← readStatements config compose source
  match layout? with
  | none => return { root := ← newRoot source.filename nodes }
  | some layout =>
      return { root := ← composeLayout compose source layout, layout := some layout.path }

/-- Composes a template; the fuel bounds how many templates lead to one another. -/
def composeWith (config : Config) : Nat → Source → Assemble Composed
  | 0, _ => throw ⟨.exhausted, {}⟩
  | fuel + 1, source => composeStep config (composeWith config fuel) source

/-- A bound on the number of templates that lead to one another: none of them is loaded twice
    under one path. -/
def Config.chainBound (config : Config) : Nat :=
  match config.activeLoader with
  | .table templates => templates.size + 2
  | .files tree => 3 * tree.files.size + 16

/-- Composes a template that is given as text. -/
def compose (config : Config) (text : String) (filename : Option String) : Assemble Composed :=
  composeWith config config.chainBound { text, filename }

end Stencil
