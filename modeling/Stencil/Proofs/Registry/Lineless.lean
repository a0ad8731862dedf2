import Stencil.Proofs.Node.Lineless
import Stencil.Proofs.Registry.Snapshot

/-! # Shared state without line numbers

    The store, the named blocks and the mixins hold trees.  Reading, writing and
    bringing to the current state, defining and copying named blocks, and finding
    the mixins without a place go through the trees and never look at a line
    number. -/

namespace Stencil

open Registry

/-- A store without line numbers in its blocks. -/
def Store.lineless (store : Store Draft) : Store Draft :=
  { store with current := store.current.mapValues Block.lineless }

/-- A definition without line numbers in its block and its nodes. -/
def Definition.lineless (definition : Definition Draft) : Definition Draft :=
  copyDefinition Block.lineless Node.lineless definition

/-- A registry without line numbers in its definitions. -/
def Registry.lineless (registry : Registry Draft) : Registry Draft :=
  registry.mapValues Definition.lineless

/-- The outcome of a definition without line numbers. -/
def Defined.lineless (defined : Defined Draft) : Defined Draft :=
  ⟨defined.block.lineless, defined.store.lineless, defined.registry.lineless⟩

namespace Store

variable (store : Store Draft) (block : Block BlockId Draft)

theorem lineless_read : (store.read block).lineless = store.lineless.read block.lineless := by
  show _ = ((store.lineless.current.get? block.id).getD block.lineless)
  rw [show store.lineless.current = store.current.mapValues Block.lineless from rfl,
    OrderedMap.get?_mapValues, read]
  cases store.current.get? block.id <;> rfl

theorem lineless_write : (store.write block).lineless = store.lineless.write block.lineless := by
  rw [lineless, write, OrderedMap.mapValues_insert]
  rfl

theorem lineless_setNodes (nodes : List Draft) :
    (store.setNodes block nodes).lineless
      = store.lineless.setNodes block.lineless (nodes.map Node.lineless) := by
  rw [setNodes, lineless_write, setNodes, ← lineless_read]
  rfl

theorem lineless_resolveWith (fuel : Nat) : ∀ node : Draft,
    (store.resolveWith fuel node).lineless = store.lineless.resolveWith fuel node.lineless := by
  induction fuel with
  | zero => exact fun _ => rfl
  | succ fuel ih =>
      intro node
      rw [resolveWith, lineless_substitute, resolveWith]
      congr 1
      funext id
      rw [show store.lineless.current = store.current.mapValues Block.lineless from rfl,
        OrderedMap.get?_mapValues]
      cases store.current.get? id with
      | none => rfl
      | some state =>
          have hnodes : (state.nodes.map (store.resolveWith fuel)).map Node.lineless
              = (state.nodes.map Node.lineless).map (store.lineless.resolveWith fuel) :=
            Node.map_lineless fun node _ => ih node
          simp only [Option.map_some, Block.lineless, hnodes]

theorem lineless_resolve (node : Draft) :
    (store.resolve node).lineless = store.lineless.resolve node.lineless := by
  have hsize : store.lineless.current.size = store.current.size := List.length_map _
  rw [resolve, lineless_resolveWith, resolve, hsize]

theorem lineless_resolveBlock :
    (store.resolveBlock block).lineless = store.lineless.resolveBlock block.lineless := by
  have hnodes : ((store.read block).nodes.map store.resolve).map Node.lineless
      = ((store.read block).nodes.map Node.lineless).map store.lineless.resolve :=
    Node.map_lineless fun node _ => lineless_resolve store node
  rw [resolveBlock, resolveBlock, ← lineless_read]
  simp only [Block.lineless, hnodes]

end Store

namespace Registry

variable (store : Store Draft) (registry : Registry Draft)

/-! ## Definitions -/

theorem lineless_initial (block : Block BlockId Draft) (owner : Nat) :
    (initial block owner).lineless = initial block.lineless owner := by
  obtain ⟨_, line, ⟨_, _, mode, _⟩, nodes⟩ := block
  cases mode <;> rfl

theorem lineless_sequential (id : BlockId) (previous : Definition Draft) (existing : List Draft)
    (block : Block BlockId Draft) (owner : Nat) :
    (sequential id previous existing block owner).lineless
      = sequential id previous.lineless (existing.map Node.lineless) block.lineless owner := by
  obtain ⟨_, line, ⟨_, _, mode, _⟩, nodes⟩ := block
  obtain ⟨_, before, _, head, tail⟩ := previous
  cases mode <;> cases before <;>
    simp [sequential, merged, Definition.lineless, copyDefinition, Block.lineless,
      List.map_append]

theorem lineless_inherited (previous : Definition Draft) (kept block : Block BlockId Draft)
    (owner : Nat) :
    (inherited previous kept block owner).lineless
      = inherited previous.lineless kept.lineless block.lineless owner := by
  obtain ⟨_, line, ⟨_, _, mode, _⟩, nodes⟩ := block
  obtain ⟨_, before, _, head, tail⟩ := previous
  cases mode <;> cases before <;>
    simp [inherited, Definition.lineless, copyDefinition, Block.lineless, List.map_append]

theorem lineless_emptyUnless (result : BlockId) (block : Block BlockId Draft) :
    (emptyUnless result store block).lineless
      = emptyUnless result store.lineless block.lineless := by
  unfold emptyUnless
  rw [show block.lineless.id = block.id from rfl]
  split
  · rfl
  · exact store.lineless_setNodes block []

theorem lineless_redefinition (previous : Definition Draft) (block : Block BlockId Draft)
    (owner : Nat) :
    (redefinition store previous block owner).lineless
      = redefinition store.lineless previous.lineless block.lineless owner := by
  have hread : (store.read previous.block).lineless
      = store.lineless.read previous.lineless.block := store.lineless_read previous.block
  have hkept : (store.read previous.block).nodes.map Node.lineless
      = (store.lineless.read previous.lineless.block).nodes := congrArg Block.nodes hread
  rw [redefinition, redefinition, show previous.lineless.owner = previous.owner from rfl]
  split
  · rw [lineless_sequential, hkept]
    rfl
  · rw [lineless_inherited, hread]

theorem get?_lineless (name : String) :
    registry.lineless.get? name = (registry.get? name).map Definition.lineless :=
  OrderedMap.get?_mapValues Definition.lineless registry name

theorem lineless_insert (name : String) (definition : Definition Draft) :
    Registry.lineless (registry.insert name definition)
      = registry.lineless.insert name definition.lineless :=
  OrderedMap.mapValues_insert Definition.lineless registry name definition

/-- **Defining a named block** looks at no line number. -/
theorem lineless_define (name : String) (block : Block BlockId Draft) (owner : Nat) :
    (registry.define store name block owner).lineless
      = registry.lineless.define store.lineless name block.lineless owner := by
  cases hget : registry.get? name with
  | none =>
      have hget' : registry.lineless.get? name = none := by rw [get?_lineless, hget]; rfl
      rw [define_of_none hget, define_of_none hget', Defined.lineless, Store.lineless_write,
        Store.lineless_read, lineless_insert, lineless_initial, Store.lineless_read]
  | some previous =>
      have hget' : registry.lineless.get? name = some previous.lineless := by
        rw [get?_lineless, hget]
        rfl
      have hdefinition := lineless_redefinition store previous (store.read block) owner
      rw [Store.lineless_read] at hdefinition
      rw [define_of_some hget, define_of_some hget', Defined.lineless, ← hdefinition]
      dsimp only
      rw [lineless_emptyUnless, lineless_emptyUnless, Store.lineless_write, lineless_insert,
        Store.lineless_read]
      rfl

/-! ## Snapshots -/

omit store registry in
theorem flatMap_blockIds_lineless (nodes : List Draft) :
    (nodes.map Node.lineless).flatMap blockIds = nodes.flatMap blockIds := by
  rw [List.flatMap_map]
  simp only [blockIds_lineless]

theorem mentioned_lineless : registry.lineless.mentioned = registry.mentioned := by
  rw [mentioned, mentioned, show registry.lineless.values = registry.values.map Definition.lineless
    from OrderedMap.values_mapValues Definition.lineless registry, List.flatMap_map]
  congr 1
  funext definition
  rw [show definition.lineless.block = definition.block.lineless from rfl, ← Node.lineless_ofBlock,
    blockIds_lineless, show definition.lineless.head ++ definition.lineless.tail
      = (definition.head ++ definition.tail).map Node.lineless from List.map_append.symm,
    flatMap_blockIds_lineless]

theorem inside_lineless (id : BlockId) : inside store.lineless id = inside store id := by
  rw [inside, inside, show store.lineless.current.get? id
    = (store.current.get? id).map Block.lineless from OrderedMap.get?_mapValues ..]
  cases store.current.get? id with
  | none => rfl
  | some block => exact flatMap_blockIds_lineless block.nodes

theorem withInner_lineless (fuel : Nat) : ∀ ids : List BlockId,
    withInner store.lineless fuel ids = withInner store fuel ids := by
  induction fuel with
  | zero => exact fun _ => OrderedMap.keys_mapValues Block.lineless store.current
  | succ fuel ih =>
      intro ids
      have hinside : inside store.lineless = inside store := funext (inside_lineless store)
      rw [withInner, withInner, hinside, ih]

theorem recorded_lineless :
    recorded store.lineless registry.lineless
      = (recorded store registry).map fun entry => (entry.1, entry.2.lineless) := by
  have hsize : store.lineless.current.size = store.current.size := List.length_map _
  rw [recorded, recorded, mentioned_lineless, withInner_lineless, hsize]
  exact List.filter_map

omit store registry in
theorem lineless_shiftedAll (offset : BlockId) (nodes : List Draft) :
    (nodes.map (shifted offset)).map Node.lineless
      = (nodes.map Node.lineless).map (shifted offset) :=
  Node.map_lineless fun node _ => Node.lineless_relabel _ node

omit store registry in
theorem lineless_shiftedBlock (offset : BlockId) (block : Block BlockId Draft) :
    (shiftedBlock offset block).lineless = shiftedBlock offset block.lineless := by
  simp only [shiftedBlock, Block.lineless, lineless_shiftedAll]

theorem lineless_copyDefinition (offset : BlockId) (definition : Definition Draft) :
    (copyDefinition (shiftedBlock offset) (shifted offset) definition).lineless
      = copyDefinition (shiftedBlock offset) (shifted offset) definition.lineless := by
  simp only [copyDefinition, Definition.lineless, lineless_shiftedBlock, lineless_shiftedAll]

/-- **Copying a registry** looks at no line number. -/
theorem lineless_snapshot :
    snapshot store.lineless registry.lineless
      = ((snapshot store registry).1.lineless, (snapshot store registry).2.lineless) := by
  refine Prod.ext ?_ ?_
  · rw [snapshot, recorded_lineless]
    simp only [snapshot, Store.lineless, OrderedMap.mapValues, List.map_append, List.map_map,
      Function.comp_def, lineless_shiftedBlock]
  · simp only [snapshot, Registry.lineless, OrderedMap.mapValues, List.map_map, Function.comp_def,
      lineless_copyDefinition, Store.lineless]

end Registry

end Stencil
