import Stencil.Composition.Compose

/-! # Documents — the finished trees of templates

    A document is what composing a template gives: its tree, the named blocks
    and mixins that were defined on the way, and the layout it extends.  The
    log is kept whether composing succeeds or not. -/

namespace Stencil

/-- What composing a template gives. -/
structure Document where
  root : Tree
  /-- The named blocks with their modes, in the order of their first definition. -/
  blocks : List (String × BlockMode × Tree) := []
  /-- The mixin definitions by name, in the order of their first definition. -/
  mixins : List (String × Tree) := []
  /-- The file name of the layout. -/
  layout : Option String := none

/-- A result, and what was told on the way. -/
structure Report (α : Type) where
  result : Except Fault α
  log : List LogRecord := []

namespace Document

/-- The finished tree of a draft in its current state. -/
def finish (assembly : Assembly) (draft : Draft) : Tree :=
  (assembly.store.resolve draft).finished

/-- The document of a composed template. -/
def ofComposed (assembly : Assembly) (composed : Composed) : Document where
  root := finish assembly (.ofBlock composed.root)
  blocks := assembly.registry.entries.map fun (name, definition) =>
    (name, definition.mode, finish assembly (.ofBlock definition.block))
  mixins := assembly.mixins.entries.map fun (name, mixin) => (name, finish assembly mixin)
  layout := composed.layout

end Document

/-- Composes a template that is given as text. -/
def composeText (config : Config) (text : String) (filename : Option String := none) :
    Report Document :=
  match compose config text filename {} with
  | .ok composed assembly =>
      { result := .ok (.ofComposed assembly composed), log := assembly.log }
  | .error fault assembly => { result := .error fault, log := assembly.log }

/-- Composes the template at a path. -/
def composeFile (config : Config) (path : String) : Report Document :=
  match config.activeLoader.load path with
  | .ok text => composeText config text path
  | .error fault => { result := .error (fault.alone path) }

/-- The tree of a template that is given as text. -/
def parseText (config : Config) (text : String) (filename : Option String := none) :
    Except Fault Tree :=
  (composeText config text filename).result.map Document.root

/-- The tree of the template at a path. -/
def parseFile (config : Config) (path : String) : Except Fault Tree :=
  (composeFile config path).result.map Document.root

end Stencil
