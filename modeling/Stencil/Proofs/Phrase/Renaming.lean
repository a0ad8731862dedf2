import Stencil.Proofs.Phrase.Worlds

/-! # Actions under other names

    What an evaluation does with the state that templates share, done in two
    related states: each action leads to related results in a later world. -/

namespace Stencil

open Registry

/-! ## Values -/

section Values

instance : Renames Begun where
  rename ρ
    | .nothing => .nothing
    | .element body => .element (rename ρ body)
    | .included root target => .included (rename ρ root) (rename ρ target)
    | .literal text => .literal text

instance : Renames Parse.OpenElement where
  rename ρ opened := { opened with code := rename ρ opened.code, body := rename ρ opened.body }

instance : Renames Composed where
  rename ρ composed := { composed with root := rename ρ composed.root }

variable (ρ : Renaming)

theorem Node.map_lineless_rename (nodes : List Draft) :
    (rename ρ nodes).map Node.lineless = rename ρ (nodes.map Node.lineless) :=
  Node.map_lineless fun node _ => node.lineless_relabel ρ.ids

theorem Block.lineless_rename (block : Block BlockId Draft) :
    (rename ρ block).lineless = rename ρ block.lineless :=
  congrArg (Block.mk _ 0 block.props) (Node.map_lineless_rename ρ block.nodes)

theorem Definition.lineless_rename (definition : Definition Draft) :
    (rename ρ definition).lineless = rename ρ definition.lineless := by
  obtain ⟨block, mode, owner, head, tail⟩ := definition
  show Definition.mk (rename ρ block).lineless mode (owner + ρ.shift)
    ((rename ρ head).map Node.lineless) ((rename ρ tail).map Node.lineless) = _
  rw [Block.lineless_rename, Node.map_lineless_rename, Node.map_lineless_rename]
  rfl

theorem OrderedMap.mapValues_rename {κ α : Type} [Renames κ] [Renames α] {f : α → α}
    (hf : ∀ value, f (rename ρ value) = rename ρ (f value)) (map : OrderedMap κ α) :
    (rename ρ map).mapValues f = rename ρ (map.mapValues f) := by
  refine congrArg OrderedMap.mk ?_
  show (map.entries.map _).map _ = (map.entries.map _).map _
  rw [List.map_map, List.map_map]
  exact List.map_congr_left fun entry _ => Prod.ext rfl (hf entry.2)

end Values

/-! ## What templates share -/

namespace World

variable {world : World} {assembly other : Assembly}

theorem Shares.plain (h : world.Shares assembly other) :
    world.Shares assembly.plain other.plain where
  next := h.next
  renamed := h.renamed
  current := h.current.map (OrderedMap.mapValues Block.lineless) fun σ =>
    OrderedMap.mapValues_rename σ (Block.lineless_rename σ)
  registry := h.registry.map Registry.lineless fun σ =>
    OrderedMap.mapValues_rename σ (Definition.lineless_rename σ)
  mixins := h.mixins.map linelessMixins fun σ =>
    OrderedMap.mapValues_rename σ (Node.lineless_relabel σ.ids)
  templates := h.templates

/-- The next identities stand for each other once they are given away. -/
theorem Shares.fresh (h : world.Shares assembly other) :
    (world.given 1).Relates assembly.store.next other.store.next := by
  rw [h.next, h.renamed]
  exact ⟨fun σ τ _ hsame => hsame _ (Nat.lt_succ_self _), rfl⟩

theorem Shares.taken (h : world.Shares assembly other) :
    (world.given 1).Shares { assembly with store := assembly.store.taken }
      { other with store := other.store.taken } :=
  have hle := world.le_given 1
  ⟨congrArg (· + 1) h.next, (congrArg (· + 1) h.renamed).trans (world.fits 1).symm,
    h.current.mono hle, h.registry.mono hle, h.mixins.mono hle, h.templates⟩

section Store

variable {block block' : Block BlockId Draft}

/-- A state of the store, given by the changed blocks. -/
private def storeOf (current : OrderedMap BlockId (Block BlockId Draft)) : Store Draft :=
  { current }

private theorem renamed_storeOf (σ : Renaming)
    (current : OrderedMap BlockId (Block BlockId Draft)) :
    (storeOf current).Renamed σ (storeOf (rename σ current)) :=
  rfl

theorem Shares.read (h : world.Shares assembly other) (hblock : world.Relates block block') :
    world.Relates (assembly.store.read block) (other.store.read block') :=
  h.current.map₂ hblock (fun current block => (storeOf current).read block)
    fun σ current block => (renamed_storeOf σ current).read block

theorem Shares.resolveBlock (h : world.Shares assembly other)
    (hblock : world.Relates block block') :
    world.Relates (assembly.store.resolveBlock block) (other.store.resolveBlock block') := by
  have hstate : ∀ σ : Renaming,
      assembly.store.Renamed σ (storeOf (rename σ assembly.store.current)) := fun _ => rfl
  have hother : assembly.store.Renamed world.names other.store := h.current.renamed
  refine ⟨fun σ τ hshift hsame => ?_, ?_⟩
  · rw [← (hstate σ).resolveBlock, ← (hstate τ).resolveBlock,
      h.current.supported σ τ hshift hsame, hblock.supported σ τ hshift hsame]
  · rw [hblock.renamed, hother.resolveBlock]

theorem Shares.write (h : world.Shares assembly other) (hblock : world.Relates block block') :
    world.Shares { assembly with store := assembly.store.write block }
      { other with store := other.store.write block' } :=
  { h with
    next := h.next
    renamed := h.renamed
    current := h.current.map₂ hblock (fun current block => ((storeOf current).write block).current)
      fun σ current block => (renamed_storeOf σ current).write block }

theorem Shares.setNodes (h : world.Shares assembly other) (hblock : world.Relates block block')
    {nodes nodes' : List Draft} (hnodes : world.Relates nodes nodes') :
    world.Shares { assembly with store := assembly.store.setNodes block nodes }
      { other with store := other.store.setNodes block' nodes' } :=
  h.write <| (h.read hblock).map₂ hnodes (fun block nodes => { block with nodes }) fun _ _ _ => rfl

end Store

end World

namespace Evaluate

variable {strict : Prop} {world : World} {nodes nodes' : List Draft}

theorem follows_fresh : Follows strict world fresh fresh := fun _ _ hsites =>
  .done (world.le_given 1) hsites.assembly.fresh ⟨hsites.layout, hsites.assembly.taken⟩

theorem follows_newBlock (h : world.Relates nodes nodes') (props : BlockProps) :
    Follows strict world (Evaluate.newBlock nodes props) (Evaluate.newBlock nodes' props) :=
  follows_fresh.bind fun _ hle _ _ hid => follows_pure <| hid.map₂ (h.mono hle)
    (fun id nodes => Block.mk id 0 props nodes) fun _ _ _ => rfl

theorem follows_newNode (h : world.Relates nodes nodes') {kind : Kind BlockId}
    (hkind : ∀ f : BlockId → BlockId, kind.relabel f = kind) :
    Follows strict world (Evaluate.newNode kind nodes) (Evaluate.newNode kind nodes') := by
  refine follows_fresh.bind fun _ hle _ _ hid => follows_pure <| hid.map₂ (h.mono hle)
    (fun id nodes => (Node.make (some id) 0 kind nodes : Draft)) fun σ id nodes => ?_
  show _ = Node.relabel σ.ids _
  rw [Node.relabel_make, hkind]
  rfl

theorem follows_loaded {template other : Template} (h : other.config = template.config)
    (path : String) : Follows strict world (loaded template path) (loaded other path) := by
  intro site site' hsites
  unfold loaded
  rw [h]
  cases template.config.activeLoader.load path with
  | ok text => exact .done world.le_refl (World.relates_of_fixed fun _ => rfl) hsites
  | error fault => exact .failed

section Actions

variable {α β : Type} [Renames β] {erase : α → β} {action other : Assemble α}

/-- An action that succeeds in related states. -/
theorem follows_plainly (h : ∀ assembly assembly', world.Shares assembly assembly' →
    ∃ later result after result' after', world ≤ later ∧ action assembly = .ok result after
      ∧ other assembly' = .ok result' after' ∧ later.Relates (erase result) (erase result')
      ∧ later.Shares after after') :
    Follows strict world (plainly erase action) (plainly erase other) := by
  intro site site' hsites
  obtain ⟨later, result, after, result', after', hle, hrun, hrun', hresult, hshares⟩ :=
    h site.assembly site'.assembly hsites.assembly
  unfold plainly
  rw [hrun, hrun']
  exact .done hle hresult ⟨hsites.layout, hshares.plain⟩

variable {block block' : Block BlockId Draft} (hblock : world.Relates block block')
include hblock

theorem relates_lineless : world.Relates block.lineless block'.lineless :=
  hblock.map Block.lineless Block.lineless_rename

theorem follows_defineBlock (name : String) (owner : Nat) :
    Follows strict world (plainly Block.lineless (Parse.defineBlock name block owner))
      (plainly Block.lineless (Parse.defineBlock name block' (owner + world.names.shift))) := by
  refine follows_plainly fun assembly assembly' hshares => ?_
  let later := world.given (identitiesFor assembly.registry name)
  have hle : world ≤ later := world.le_given _
  have hstore : assembly.store.Renamed world.names assembly'.store := hshares.current.renamed
  have hnext : assembly'.store.next = world.names.ids assembly.store.next := by
    rw [hshares.renamed, hshares.next]
  have hdefined := define_rename hstore assembly.registry name (fun _ => hnext) block owner
  rw [← hshares.registry.renamed, ← hblock.renamed] at hdefined
  have hsupported := supported_define (hshares.next ▸ hshares.current.supported)
    (hshares.next ▸ hshares.registry.supported) (hshares.next ▸ hblock.supported) name owner
  rw [hshares.next] at hsupported
  obtain ⟨hplaced, hcurrent, hregistry⟩ := hsupported
  have hmade : later.Relates (assembly.registry.define assembly.store name block owner).block
      (assembly'.registry.define assembly'.store name block' (owner + world.names.shift)).block :=
    ⟨hplaced, hdefined.block⟩
  refine ⟨later, _, _, _, _, hle, rfl, rfl, relates_lineless hmade, ?_⟩
  exact {
    next := hdefined.next.trans (congrArg (· + _) hshares.next)
    renamed := (hdefined.next'.trans (congrArg (· + _) hshares.renamed)).trans (world.fits _).symm
    current := ⟨hcurrent, hdefined.store⟩
    registry := ⟨hregistry, hdefined.registry⟩
    mixins := hshares.mixins.mono hle
    templates := hshares.templates }

theorem follows_nameRoot (path : String) :
    Follows strict world (plainly Block.lineless (Parse.nameRoot path block))
      (plainly Block.lineless (Parse.nameRoot path block')) := by
  refine follows_plainly fun assembly assembly' hshares => ?_
  have hnamed := (hshares.read hblock).map
    (fun current : Block BlockId Draft =>
      { current with props := { current.props with filename := some path } }) fun _ _ => rfl
  exact ⟨world, _, _, _, _, world.le_refl, rfl, rfl, relates_lineless hnamed,
    hshares.write hnamed⟩

theorem follows_includeTarget :
    Follows strict world (plainly Block.lineless (Parse.includeTarget block))
      (plainly Block.lineless (Parse.includeTarget block')) := by
  refine follows_plainly fun assembly assembly' hshares => ?_
  have htarget := (hshares.resolveBlock hblock).map Node.includePoint fun σ root =>
    Node.includePoint_relabel σ.injective root
  exact ⟨world, _, _, _, _, world.le_refl, rfl, rfl, relates_lineless htarget, hshares⟩

theorem follows_pushInto {node node' : Draft} (hnode : world.Relates node node') :
    Follows strict world (plainly id (Parse.pushInto block node))
      (plainly id (Parse.pushInto block' node')) := by
  refine follows_plainly fun assembly assembly' hshares => ?_
  have hcurrent := (hshares.read hblock).map Block.nodes fun _ _ => rfl
  have hnodes := hcurrent.append hnode.singleton
  exact ⟨world, _, _, _, _, world.le_refl, rfl, rfl, World.relates_of_fixed fun _ => rfl,
    hshares.setNodes hblock hnodes⟩

end Actions

end Evaluate

end Stencil
