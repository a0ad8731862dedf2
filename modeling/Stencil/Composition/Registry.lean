import Stencil.Composition.Store

/-! # The registry — named blocks of a chain of templates

    A registry holds the definition of every named block met so far.  Along a
    chain of layouts the most derived template comes first, so a definition by
    another owner is that of a layout further up, and the definition that is
    there decides how the two combine:

    * a definition that replaces wins outright;
    * one that appends or prepends wraps the layout's content, which goes
      between its `head` and its `tail`.

    Definitions by one owner combine in the order in which they come.
    Combining moves nodes: of the blocks that take part, only the one that
    holds the result keeps any. -/

namespace Stencil

/-- The definition of a named block. -/
structure Definition (α : Type) where
  /-- The block that stands where the name is used. -/
  block : Block BlockId α
  /-- How the definition combines with that of a layout. -/
  mode : BlockMode
  /-- The template that the latest definition came from. -/
  owner : Nat
  /-- What goes before the content of a layout. -/
  head : List α := []
  /-- What goes after the content of a layout. -/
  tail : List α := []
deriving Repr, DecidableEq

/-- The definitions of a chain of templates, by block name. -/
abbrev Registry (α : Type) := OrderedMap String (Definition α)

/-- The outcome of a definition: the block to place, and the state afterwards. -/
structure Defined (α : Type) where
  block : Block BlockId α
  store : Store α
  registry : Registry α
deriving Repr, DecidableEq

namespace Registry

variable {α : Type}

/-- The block of a name. -/
def block? (registry : Registry α) (name : String) : Option (Block BlockId α) :=
  (registry.get? name).map Definition.block

/-- The mode of a name. -/
def mode? (registry : Registry α) (name : String) : Option BlockMode :=
  (registry.get? name).map Definition.mode

/-- The display of a registry. -/
def display (registry : Registry α) : String :=
  "BlockRegistry(" ++ Text.quotedList registry.keys ++ ")"

/-- The first definition of a name. -/
def initial (block : Block BlockId α) (owner : Nat) : Definition α :=
  match block.props.mode with
  | .append => { block, mode := .append, owner, tail := block.nodes }
  | .prepend => { block, mode := .prepend, owner, head := block.nodes }
  | .replace => { block, mode := .replace, owner }

/-- A new block with given contents, made after the pattern of a definition's block. -/
def merged (id : BlockId) (like : Block BlockId α) (nodes : List α) : Block BlockId α where
  id := id
  line := like.line
  props := { mode := like.props.mode, filename := like.props.filename }
  nodes := nodes

/-- A later definition by the same owner; `existing` is what the block holds so far. -/
def sequential (id : BlockId) (previous : Definition α) (existing : List α)
    (block : Block BlockId α) (owner : Nat) : Definition α :=
  let wraps := previous.mode != .replace
  match block.props.mode with
  | .append =>
      { block := merged id block (existing ++ block.nodes), mode := previous.mode, owner,
        head := if wraps then previous.head else [],
        tail := if wraps then previous.tail ++ block.nodes else [] }
  | .prepend =>
      { block := merged id block (block.nodes ++ existing), mode := previous.mode, owner,
        head := if wraps then block.nodes ++ previous.head else [],
        tail := if wraps then previous.tail else [] }
  | .replace => { block := merged id block block.nodes, mode := .replace, owner }

/-- A definition by a layout of the owner of the previous one; `kept` is the block of the
    previous one in its current state. -/
def inherited (previous : Definition α) (kept : Block BlockId α) (block : Block BlockId α)
    (owner : Nat) : Definition α :=
  match previous.mode with
  | .replace => { block := kept, mode := .replace, owner }
  | _ =>
      let filled := { kept with nodes := previous.head ++ block.nodes ++ previous.tail }
      match block.props.mode with
      | .append =>
          { block := filled, mode := .append, owner,
            head := previous.head, tail := block.nodes ++ previous.tail }
      | .prepend =>
          { block := filled, mode := .prepend, owner,
            head := previous.head ++ block.nodes, tail := previous.tail }
      | .replace => { block := filled, mode := .replace, owner }

/-- Empties a block unless it is the one that holds the result. -/
def emptyUnless (result : BlockId) (store : Store α) (block : Block BlockId α) : Store α :=
  if block.id = result then store else store.setNodes block []

/-- Defines a name anew: the block that was given or was there is emptied unless it holds the
    result. -/
def redefine (store : Store α) (registry : Registry α) (name : String)
    (previous : Definition α) (block : Block BlockId α) (owner : Nat) : Defined α :=
  let kept := store.read previous.block
  let definition :=
    if previous.owner = owner then sequential store.next previous kept.nodes block owner
    else inherited previous kept block owner
  let store := store.taken.write definition.block
  let store := emptyUnless definition.block.id store previous.block
  let store := emptyUnless definition.block.id store block
  { block := definition.block, store, registry := registry.insert name definition }

/-- Defines a block name and gives the block to place. -/
def define (store : Store α) (registry : Registry α) (name : String)
    (block : Block BlockId α) (owner : Nat) : Defined α :=
  let block := store.read block
  match registry.get? name with
  | none =>
      { block, store := store.write block, registry := registry.insert name (initial block owner) }
  | some previous => redefine store registry name previous block owner

/-! ## Snapshots -/

/-- Applies a function to every node of a definition and another to its block. -/
def copyDefinition (block : Block BlockId α → Block BlockId α) (node : α → α)
    (definition : Definition α) : Definition α :=
  { definition with
    block := block definition.block,
    head := definition.head.map node,
    tail := definition.tail.map node }

/-- A tree with every identity moved up by `offset`. -/
def shifted (offset : BlockId) (node : Draft) : Draft := node.relabel (offset + ·)

/-- A block with its own identity and those inside moved up by `offset`. -/
def shiftedBlock (offset : BlockId) (block : Block BlockId Draft) : Block BlockId Draft :=
  { block with id := offset + block.id, nodes := block.nodes.map (shifted offset) }

/-- The blocks that stand in a tree as it was written. -/
def blockIds (node : Draft) : List BlockId :=
  node.fold fun _ _ kind parts =>
    match kind with
    | .block id _ => id :: parts.flatten
    | _ => parts.flatten

/-- The blocks that stand in the definitions of a registry. -/
def mentioned (registry : Registry Draft) : List BlockId :=
  registry.values.flatMap fun definition =>
    blockIds (.ofBlock definition.block) ++ (definition.head ++ definition.tail).flatMap blockIds

/-- The blocks that stand in the current state of a block, if it has changed. -/
def inside (store : Store Draft) (id : BlockId) : List BlockId :=
  match store.current.get? id with
  | some block => block.nodes.flatMap blockIds
  | none => []

/-- Some blocks and those inside them, at any depth; without fuel left, all that have changed. -/
def withInner (store : Store Draft) : Nat → List BlockId → List BlockId
  | 0, _ => store.current.keys
  | fuel + 1, ids =>
      let more := (ids.flatMap (inside store)).filter fun id => !ids.contains id
      if more.isEmpty then ids else withInner store fuel (ids ++ more.eraseDups)

/-- The changed blocks in and inside the definitions of a registry, with their current states. -/
def recorded (store : Store Draft) (registry : Registry Draft) :
    List (BlockId × Block BlockId Draft) :=
  let ids := withInner store (store.current.size + 1) registry.mentioned
  store.current.entries.filter fun entry => ids.contains entry.1

/-- An independent copy of a registry: every block has an identity that no block had before, one
    and the same for every place it stands in, and its current state is recorded anew. -/
def snapshot (store : Store Draft) (registry : Registry Draft) :
    Store Draft × Registry Draft :=
  ({ next := store.next + store.next,
     current := ⟨store.current.entries ++ (recorded store registry).map fun entry =>
       (store.next + entry.1, shiftedBlock store.next entry.2)⟩ },
    registry.mapValues (copyDefinition (shiftedBlock store.next) (shifted store.next)))

end Registry

end Stencil
