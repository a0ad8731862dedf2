import Stencil.Proofs.Node.Blocks
import Stencil.Proofs.Registry.Settled

/-! # Relocation — what is shown depends on what is reached

    A registry shows its blocks in their current state, with the current states
    of the blocks inside them at any depth.  So two registries show the same, up
    to the names of the blocks, when the blocks that are reached from the one are
    in the same state as their counterparts: that is what `Relocates` says.  The
    states of other blocks do not matter. -/

namespace Stencil

namespace Store

open Registry

/-- The blocks that are met on the way down from some blocks, through the current states. -/
inductive Reaches (store : Store Draft) (roots : List BlockId) : BlockId → Prop where
  | root {id : BlockId} : id ∈ roots → Reaches store roots id
  | down {id inner : BlockId} : Reaches store roots id → inner ∈ inside store id →
      Reaches store roots inner

theorem Reaches.mono {store : Store Draft} {roots more : List BlockId} {id : BlockId}
    (hroots : roots ⊆ more) (h : store.Reaches roots id) : store.Reaches more id := by
  induction h with
  | root hid => exact .root (hroots hid)
  | down _ hinner ih => exact .down ih hinner

/-- A collection that holds the roots, and with a block what is inside it, holds all that is
    reached. -/
theorem Reaches.of_closed {store : Store Draft} {roots : List BlockId} {K : BlockId → Prop}
    (hroots : ∀ id ∈ roots, K id) (hinside : ∀ id, K id → ∀ inner ∈ inside store id, K inner)
    {id : BlockId} (h : store.Reaches roots id) : K id := by
  induction h with
  | root hid => exact hroots _ hid
  | down _ hinner ih => exact hinside _ ih _ hinner

/-- All recorded blocks that are reached are collected, whatever the fuel. -/
theorem Reaches.mem_withInner {store : Store Draft} {id : BlockId}
    (hrecorded : (store.current.get? id).isSome) (fuel : Nat) :
    ∀ {roots : List BlockId}, store.Reaches roots id → id ∈ withInner store fuel roots := by
  induction fuel with
  | zero => exact fun _ => OrderedMap.mem_keys hrecorded
  | succ fuel ih =>
      intro roots h
      rw [withInner]
      split
      · next hnone =>
          -- nothing is left to be added, so what was collected is closed
          refine h.of_closed (K := (· ∈ roots)) (fun _ hid => hid) ?_
          intro outer houter inner hinner
          have hempty := List.isEmpty_iff.mp hnone
          have hnot := List.filter_eq_nil_iff.mp hempty inner
            (List.mem_flatMap.mpr ⟨outer, houter, hinner⟩)
          simpa using hnot
      · exact ih (h.mono (List.subset_append_left ..))

/-- The blocks of the first store that are collected in `K` are in the second store, under other
    names, in the same state. -/
structure Relocates (store : Store Draft) (f : BlockId → BlockId) (K : BlockId → Prop)
    (other : Store Draft) : Prop where
  closed : ∀ id, K id → ∀ inner ∈ inside store id, K inner
  state : ∀ id, K id →
    other.current.get? (f id) = (store.current.get? id).map (Block.relabel f)

section Relocates

variable {f : BlockId → BlockId} {K : BlockId → Prop} {store other : Store Draft}

theorem Relocates.of_state {id : BlockId} {block : Block BlockId Draft}
    (h : store.Relocates f K other) (hid : K id) (hblock : store.current.get? id = some block) :
    ∀ inner ∈ block.nodes.flatMap blockIds, K inner := by
  have hinside := h.closed id hid
  rwa [inside, hblock] at hinside

/-- Relocated trees come to the relocated current state. -/
theorem Relocates.map_resolveWith (h : store.Relocates f K other) (depth : Nat) :
    ∀ nodes : List Draft, (∀ id ∈ nodes.flatMap blockIds, K id) →
      (nodes.map (Node.relabel f)).map (other.resolveWith depth)
        = (nodes.map (store.resolveWith depth)).map (Node.relabel f) := by
  induction depth with
  | zero => exact fun nodes _ => by rw [Store.map_resolveWith_zero, Store.map_resolveWith_zero]
  | succ depth ih =>
      intro nodes hnodes
      rw [List.map_map, List.map_map]
      refine List.map_congr_left fun node hnode => substitute_relabel f node fun id hid => ?_
      have hK := hnodes id (List.mem_flatMap.mpr ⟨node, hnode, hid⟩)
      rw [h.state id hK]
      cases hblock : store.current.get? id with
      | none => rfl
      | some block =>
          have hinner := ih block.nodes (h.of_state hK hblock)
          simp only [Option.map_some, Block.relabel, hinner]

/-- A relocated block is read in the relocated state. -/
theorem Relocates.read (h : store.Relocates f K other) {block : Block BlockId Draft}
    (hid : K block.id) : other.read (block.relabel f) = (store.read block).relabel f := by
  have hstate := h.state block.id hid
  rw [Store.read, Store.read]
  show ((other.current.get? (f block.id)).getD _) = _
  rw [hstate]
  cases store.current.get? block.id <;> rfl

/-- What stands in a block in its current state was collected with it. -/
theorem Relocates.within_read (h : store.Relocates f K other) {block : Block BlockId Draft}
    (hblock : ∀ id ∈ blockIds (.ofBlock block), K id) :
    ∀ id ∈ (store.read block).nodes.flatMap blockIds, K id := by
  rw [blockIds_ofBlock] at hblock
  obtain ⟨hid, hnodes⟩ := List.forall_mem_cons.mp hblock
  rw [Store.read]
  cases hstate : store.current.get? block.id with
  | none => exact hnodes
  | some state => exact h.of_state hid hstate

end Relocates

end Store

/-- The blocks that stand in a definition. -/
def Definition.blockIds (definition : Definition Draft) : List BlockId :=
  Registry.blockIds (.ofBlock definition.block)
    ++ (definition.head ++ definition.tail).flatMap Registry.blockIds

namespace Registry

/-- A block belongs to a registry: it is the block of a name or stands in one, at any depth. -/
def Holds (store : Store Draft) (registry : Registry Draft) (id : BlockId) : Prop :=
  store.Reaches registry.mentioned id

/-- A block in its current state, with the blocks inside it down to some depth. -/
def shownBlock (store : Store Draft) (depth : Nat) (block : Block BlockId Draft) :
    Block BlockId Draft :=
  { store.read block with nodes := (store.read block).nodes.map (store.resolveWith depth) }

/-- What a registry holds: the names in their order, the modes, the merge data, and the contents
    of the blocks in their current state, those inside them included down to some depth. -/
def shown (store : Store Draft) (depth : Nat) (registry : Registry Draft) : Registry Draft :=
  registry.mapValues (copyDefinition (shownBlock store depth) (store.resolveWith depth))

/-- A registry with other identities in its blocks. -/
def renamed (f : BlockId → BlockId) (registry : Registry Draft) : Registry Draft :=
  registry.mapValues (copyDefinition (Block.relabel f) (Node.relabel f))

section Shown

variable {f : BlockId → BlockId} {K : BlockId → Prop} {store other : Store Draft}

theorem shownBlock_relabel (h : store.Relocates f K other) {block : Block BlockId Draft}
    (hblock : ∀ id ∈ blockIds (.ofBlock block), K id) (depth : Nat) :
    shownBlock other depth (block.relabel f) = (shownBlock store depth block).relabel f := by
  have hid := hblock block.id (by
    rw [blockIds_ofBlock]
    exact List.mem_cons_self)
  have hnodes := h.map_resolveWith depth _ (h.within_read hblock)
  rw [shownBlock, h.read hid, shownBlock]
  simp only [Block.relabel, hnodes]

/-- **A relocated registry shows the same, under other names.** -/
theorem shown_renamed (h : store.Relocates f K other) {registry : Registry Draft}
    (hregistry : ∀ id ∈ registry.mentioned, K id) (depth : Nat) :
    (registry.renamed f).shown other depth = (registry.shown store depth).renamed f := by
  have hdefinition : ∀ definition ∈ registry.values,
      copyDefinition (shownBlock other depth) (other.resolveWith depth)
          (copyDefinition (Block.relabel f) (Node.relabel f) definition)
        = copyDefinition (Block.relabel f) (Node.relabel f)
          (copyDefinition (shownBlock store depth) (store.resolveWith depth) definition) := by
    intro definition hmem
    have hids : ∀ id ∈ definition.blockIds, K id := fun id hid =>
      hregistry id (List.mem_flatMap.mpr ⟨definition, hmem, hid⟩)
    rw [Definition.blockIds, List.flatMap_append] at hids
    obtain ⟨hblock, hmerge⟩ := List.forall_mem_append.mp hids
    obtain ⟨hhead, htail⟩ := List.forall_mem_append.mp hmerge
    simp only [copyDefinition, shownBlock_relabel h hblock, h.map_resolveWith depth _ hhead,
      h.map_resolveWith depth _ htail]
  have hentries := List.map_congr_left fun entry hentry =>
    congrArg (Prod.mk (α := String) entry.1)
      (hdefinition entry.2 (List.mem_map.mpr ⟨entry, hentry, rfl⟩))
  simp only [shown, renamed, OrderedMap.mapValues, List.map_map, Function.comp_def]
  exact congrArg OrderedMap.mk hentries

theorem renamed_id (registry : Registry Draft) : registry.renamed (fun id => id) = registry := by
  have hnodes : ∀ nodes : List Draft, nodes.map (Node.relabel fun id => id) = nodes := fun nodes =>
    (List.map_congr_left fun node _ => Node.relabel_id node).trans (List.map_id _)
  simp only [renamed, OrderedMap.mapValues, copyDefinition, Block.relabel_id, hnodes]
  exact congrArg OrderedMap.mk (List.map_id _)

/-- A registry shows the same as long as the states of its own blocks are the same. -/
theorem shown_congr {registry : Registry Draft} (h : ∀ id, registry.Holds store id →
      other.current.get? id = store.current.get? id) (depth : Nat) :
    registry.shown other depth = registry.shown store depth := by
  have hstays : store.Relocates (fun id => id) (registry.Holds store) other := by
    refine ⟨fun id hid inner hinner => hid.down hinner, fun id hid => (h id hid).trans ?_⟩
    cases store.current.get? id with
    | none => rfl
    | some block => rw [Option.map_some, Block.relabel_id]
  have hshown := shown_renamed hstays (fun id hid => .root hid) depth
  rwa [renamed_id, renamed_id] at hshown

end Shown

end Registry

end Stencil
