import Stencil.Proofs.Placement.Chain
import Stencil.Proofs.Registry.Lineless

/-! # Composing without line numbers

    What the templates of a composition share may differ in line numbers
    (`Assembly.Like`).  An action on one such assembly has its like on the other
    (`Mirrors`): what composing does with trees never looks at a line. -/

namespace Stencil

open Registry

variable {α β : Type}

/-- Mixin definitions without line numbers. -/
def linelessMixins (mixins : OrderedMap String Draft) : OrderedMap String Draft :=
  mixins.mapValues Node.lineless

/-- Assemblies that differ in line numbers and in what was told. -/
structure Assembly.Like (assembly other : Assembly) : Prop where
  store : assembly.store.lineless = other.store.lineless
  registry : assembly.registry.lineless = other.registry.lineless
  mixins : linelessMixins assembly.mixins = linelessMixins other.mixins
  templates : assembly.templates = other.templates

/-- Trees of templates that differ in line numbers. -/
structure Composed.Like (composed other : Composed) : Prop where
  root : composed.root.Like other.root
  layout : composed.layout = other.layout

theorem Assembly.Like.refl (assembly : Assembly) : assembly.Like assembly := ⟨rfl, rfl, rfl, rfl⟩

theorem Assembly.Like.symm {assembly other : Assembly} (h : assembly.Like other) :
    other.Like assembly :=
  ⟨h.store.symm, h.registry.symm, h.mixins.symm, h.templates.symm⟩

theorem Assembly.Like.trans {assembly middle other : Assembly} (h : assembly.Like middle)
    (hlast : middle.Like other) : assembly.Like other :=
  ⟨h.store.trans hlast.store, h.registry.trans hlast.registry, h.mixins.trans hlast.mixins,
    h.templates.trans hlast.templates⟩

theorem Composed.Like.refl (composed : Composed) : composed.Like composed := ⟨rfl, rfl⟩

theorem Assembly.Like.next {assembly other : Assembly} (h : assembly.Like other) :
    assembly.store.next = other.store.next :=
  (congrArg Store.next h.store :)

/-- Where the one action succeeds, so does the other from an assembly that is like; `same` compares
    the results. -/
def Mirrors (same : α → α → Prop) (action other : Assemble α) : Prop :=
  ∀ ⦃before before' result after⦄, before.Like before' → action before = .ok result after →
    ∃ result' after', other before' = .ok result' after' ∧ same result result' ∧ after.Like after'

/-- Composing templates is the same for assemblies that differ in line numbers. -/
def Mirroring (compose : Source → Assemble Composed) : Prop :=
  ∀ source, Mirrors Composed.Like (compose source) (compose source)

section Rules

variable {same : α → α → Prop} {goal : β → β → Prop}

theorem mirrors_pure {result other : α} (h : same result other) :
    Mirrors same (pure result) (pure other) := by
  rintro before before' _ _ hlike ⟨⟩
  exact ⟨other, before', rfl, h, hlike⟩

theorem Mirrors.bind {action other : Assemble α} {next next' : α → Assemble β}
    (h : Mirrors same action other)
    (hnext : ∀ result result', same result result' → Mirrors goal (next result) (next' result')) :
    Mirrors goal (action >>= next) (other >>= next') := by
  intro before before' last done hlike hrun
  obtain ⟨result, after, hfirst, hrest⟩ := Parse.bind_eq_ok hrun
  obtain ⟨result', after', hfirst', hsame, hafter⟩ := h hlike hfirst
  obtain ⟨last', done', hrest', hlast, hdone⟩ := hnext result result' hsame hafter hrest
  refine ⟨last', done', ?_, hlast, hdone⟩
  show EStateM.bind other next' before' = _
  rw [EStateM.bind, hfirst']
  exact hrest'

/-- An action that reads the assembly. -/
theorem mirrors_get {next next' : Assembly → Assemble β}
    (h : ∀ assembly other : Assembly, assembly.Like other →
      Mirrors goal (next assembly) (next' other)) :
    Mirrors goal (get >>= next) (get >>= next') :=
  fun before before' _ _ hlike hrun => h before before' hlike hlike hrun

/-- Assemblies that are put in for others. -/
theorem mirrors_set {assembly other : Assembly} (h : assembly.Like other) :
    Mirrors (fun _ _ => True) (set assembly : Assemble PUnit) (set other) := by
  rintro _ _ _ _ - ⟨⟩
  exact ⟨_, other, rfl, trivial, h⟩

theorem mirrors_modify {f g : Assembly → Assembly}
    (h : ∀ assembly other : Assembly, assembly.Like other → (f assembly).Like (g other)) :
    Mirrors (fun _ _ => True) (modify f : Assemble PUnit) (modify g) := by
  rintro before before' _ _ hlike ⟨⟩
  exact ⟨_, g before', rfl, trivial, h _ _ hlike⟩

end Rules

/-! ## What composing does with trees -/

section Actions

variable {assembly other : Assembly} {root root' block block' : Block BlockId Draft}

theorem Assembly.Like.read (h : assembly.Like other) (hblock : block.Like block') :
    (assembly.store.read block).Like (other.store.read block') := by
  rw [Block.Like, Store.lineless_read, Store.lineless_read, h.store, hblock]

theorem Assembly.Like.resolveBlock (h : assembly.Like other) (hblock : block.Like block') :
    (assembly.store.resolveBlock block).Like (other.store.resolveBlock block') := by
  rw [Block.Like, Store.lineless_resolveBlock, Store.lineless_resolveBlock, h.store, hblock]

theorem Assembly.Like.write (h : assembly.Like other) (hblock : block.Like block') :
    (assembly.store.write block).lineless = (other.store.write block').lineless := by
  rw [Store.lineless_write, Store.lineless_write, h.store, hblock]

/-- A root that takes another name, or other contents. -/
theorem Block.Like.nodes (h : block.Like block') :
    block.nodes.map Node.lineless = block'.nodes.map Node.lineless :=
  congrArg Block.nodes h

theorem Block.Like.props (h : block.Like block') : block.props = block'.props :=
  (congrArg Block.props h :)

theorem Block.Like.id (h : block.Like block') : block.id = block'.id := (congrArg Block.id h :)

theorem Block.Like.ofBlock (h : block.Like block') :
    (Node.ofBlock block).Like (Node.ofBlock block') := by
  rw [Node.Like, Node.lineless_ofBlock, Node.lineless_ofBlock, h]

theorem mirrors_newRoot {filename : Option String} {nodes nodes' : List Draft}
    (h : nodes.map Node.lineless = nodes'.map Node.lineless) :
    Mirrors Block.Like (newRoot filename nodes) (newRoot filename nodes') := by
  rintro before before' _ _ hlike ⟨⟩
  exact ⟨_, _, rfl, Node.like_of_parts hlike.next rfl h, congrArg Store.taken hlike.store,
    hlike.registry, hlike.mixins, hlike.templates⟩

theorem homelessMixins_lineless {mixins mixins' : OrderedMap String Draft} {tree tree' : Draft}
    (h : linelessMixins mixins = linelessMixins mixins') (htree : tree.Like tree') :
    (homelessMixins mixins tree).map Node.lineless
      = (homelessMixins mixins' tree').map Node.lineless := by
  have hplaced : identities tree = identities tree' := by
    rw [← identities_lineless, htree, identities_lineless]
  have hvalues : mixins.values.map Node.lineless = mixins'.values.map Node.lineless := by
    rw [← OrderedMap.values_mapValues, ← OrderedMap.values_mapValues]
    exact congrArg OrderedMap.values h
  have hfilter : ∀ (placed : List (Option BlockId)) (values : List Draft),
      (values.filter fun mixin => !placed.contains mixin.id?).map Node.lineless
        = (values.map Node.lineless).filter fun mixin => !placed.contains mixin.id? := by
    intro placed values
    rw [List.filter_map]
    simp only [Function.comp_def, Node.id?_lineless]
  rw [homelessMixins, homelessMixins, hfilter, hfilter, hplaced, hvalues]

theorem mirrors_hoistMixins (layout : Layout) (h : root.Like root') :
    Mirrors Block.Like (hoistMixins layout root) (hoistMixins layout root') := by
  refine mirrors_get fun assembly other hlike => ?_
  have htree := (hlike.resolveBlock h).ofBlock
  have hmoved := homelessMixins_lineless hlike.mixins htree
  dsimp only
  generalize homelessMixins assembly.mixins (.ofBlock (assembly.store.resolveBlock root)) = moved
    at hmoved
  generalize homelessMixins other.mixins (.ofBlock (other.store.resolveBlock root')) = moved'
    at hmoved
  have hread := hlike.read h
  cases moved with
  | nil =>
      obtain rfl := List.map_eq_nil_iff.mp hmoved.symm
      exact mirrors_pure h
  | cons mixin mixins =>
      obtain ⟨mixin', mixins', rfl, -, -⟩ := List.map_eq_cons_iff.mp hmoved.symm
      have hfilled : Block.Like
          { assembly.store.read root with
            nodes := mixin :: mixins ++ (assembly.store.read root).nodes }
          { other.store.read root' with
            nodes := mixin' :: mixins' ++ (other.store.read root').nodes } := by
        refine Node.like_of_parts hread.id hread.props ?_
        rw [List.map_append, List.map_append, hmoved, hread.nodes]
      refine Mirrors.bind (mirrors_set ?_) fun _ _ _ => mirrors_pure hfilled
      exact ⟨hlike.write hfilled, hlike.registry, hlike.mixins, hlike.templates⟩

/-- A layout is composed with mixins of its own. -/
theorem mirrors_composeLayout {compose : Source → Assemble Composed} (h : Mirroring compose)
    (source source' : Source) (hpath : source.path = source'.path) (layout : Layout) :
    Mirrors Block.Like (composeLayout compose source layout)
      (composeLayout compose source' layout) := by
  refine mirrors_get fun assembly other hlike => ?_
  rw [hpath]
  refine Mirrors.bind (mirrors_modify fun _ _ hlike =>
    ⟨hlike.store, hlike.registry, rfl, hlike.templates⟩) fun _ _ _ => ?_
  refine (h _).bind fun composed composed' hcomposed => ?_
  refine Mirrors.bind (mirrors_modify fun _ _ hinner =>
    ⟨hinner.store, hinner.registry, hlike.mixins, hinner.templates⟩) fun _ _ _ => ?_
  exact mirrors_hoistMixins layout hcomposed.root

end Actions

namespace Parse

variable {root root' block block' : Block BlockId Draft}

theorem mirrors_composeInclude {template other : Template} (source : Source)
    (h : Mirrors Composed.Like (template.compose source) (other.compose source)) :
    Mirrors Composed.Like (composeInclude template source) (composeInclude other source) := by
  refine mirrors_get fun assembly other hlike => ?_
  have hcopy : ((assembly.registry.snapshot assembly.store).1.lineless,
      (assembly.registry.snapshot assembly.store).2.lineless)
        = ((other.registry.snapshot other.store).1.lineless,
          (other.registry.snapshot other.store).2.lineless) := by
    rw [← lineless_snapshot, ← lineless_snapshot, hlike.store, hlike.registry]
  refine Mirrors.bind (mirrors_set ⟨congrArg Prod.fst hcopy, congrArg Prod.snd hcopy, hlike.mixins,
    hlike.templates⟩) fun _ _ _ => h.bind fun composed composed' hcomposed => ?_
  exact Mirrors.bind (mirrors_modify fun _ _ hinner =>
    ⟨hinner.store, hlike.registry, hinner.mixins, hinner.templates⟩) fun _ _ _ =>
      mirrors_pure hcomposed

theorem mirrors_nameRoot (path : String) (h : root.Like root') :
    Mirrors Block.Like (nameRoot path root) (nameRoot path root') := by
  refine mirrors_get fun assembly other hlike => ?_
  have hread := hlike.read h
  have hnamed : Block.Like
      { assembly.store.read root with
        props := { (assembly.store.read root).props with filename := some path } }
      { other.store.read root' with
        props := { (other.store.read root').props with filename := some path } } :=
    Node.like_of_parts hread.id
      (congrArg (fun props : BlockProps => { props with filename := some path }) hread.props)
      hread.nodes
  exact Mirrors.bind (mirrors_set ⟨hlike.write hnamed, hlike.registry, hlike.mixins,
    hlike.templates⟩) fun _ _ _ => mirrors_pure hnamed

theorem mirrors_includeTarget (h : root.Like root') :
    Mirrors Block.Like (includeTarget root) (includeTarget root') := by
  refine mirrors_get fun assembly other hlike => mirrors_pure ?_
  rw [Block.Like, Node.lineless_includePoint, Node.lineless_includePoint, hlike.resolveBlock h]

theorem mirrors_pushInto {node node' : Draft} (h : block.Like block') (hnode : node.Like node') :
    Mirrors (fun _ _ => True) (pushInto block node) (pushInto block' node') := by
  refine mirrors_modify fun assembly other hlike =>
    ⟨?_, hlike.registry, hlike.mixins, hlike.templates⟩
  have hnodes := (hlike.read h).nodes
  show (assembly.store.setNodes block ((assembly.store.read block).nodes ++ [node])).lineless
    = (other.store.setNodes block' ((other.store.read block').nodes ++ [node'])).lineless
  rw [Store.lineless_setNodes, Store.lineless_setNodes, hlike.store, h, List.map_append,
    List.map_append, hnodes, List.map_singleton, List.map_singleton, hnode]

theorem mirrors_defineBlock (name : String) (owner : Nat) (h : block.Like block') :
    Mirrors Block.Like (defineBlock name block owner) (defineBlock name block' owner) := by
  refine mirrors_get fun assembly other hlike => ?_
  have hdefined : (assembly.registry.define assembly.store name block owner).lineless
      = (other.registry.define other.store name block' owner).lineless := by
    rw [lineless_define, lineless_define, hlike.store, hlike.registry, h]
  exact Mirrors.bind (mirrors_set ⟨congrArg Defined.store hdefined,
    congrArg Defined.registry hdefined, hlike.mixins, hlike.templates⟩) fun _ _ _ =>
      mirrors_pure (congrArg Defined.block hdefined)

end Parse

end Stencil
