import Stencil.Proofs.Phrase.Document
import Stencil.Proofs.Phrase.Following

/-! # Composing templates by their phrases

    Composing a template is evaluating its phrases and, if they name a layout,
    composing that (`matches_composeStep`).  By induction on the fuel, which bounds
    how many templates lead to one another, it goes on under other names in the
    same way (`composes_composeWith`).  With more templates on the way to it, or
    with less fuel, it may be refused what it was not. -/

namespace Stencil

open Evaluate

variable {config : Config} {compose : Source → Assemble Composed}

/-! ## What a template makes of its phrases -/

/-- The site at the beginning of a further template. -/
def Site.entering (site : Site) : Site where
  assembly := { site.assembly with templates := site.assembly.templates + 1 }

/-- The nodes of the phrases of a source, and what layout it extends. -/
def statementsOf (config : Config) (compose : Source → Assemble Composed) (source : Source) :
    Evaluate (List Draft × Option Layout) := fun site => do
  let phrases ← phrasesOf config source.text
  let (nodes, after) ←
    Phrase.evaluateAll (source.template config compose site.assembly.templates) phrases
      site.entering
  return ((nodes, after.layout), { site with assembly := after.assembly })

/-- What is composed of the phrases of a source. -/
def composed (config : Config) (compose : Source → Assemble Composed) (source : Source) :
    Evaluate Composed := do
  let (nodes, layout?) ← statementsOf config compose source
  match layout? with
  | none =>
      let root ← plainly Block.lineless (newRoot source.filename nodes)
      return { root }
  | some layout =>
      let root ← plainly Block.lineless (composeLayout compose source layout)
      return { root, layout := some layout.path }

theorem matches_readStatements (hcompose : Mirroring compose) (source : Source) :
    Matches (fun read => (read.1.map Node.lineless, read.2))
      (readStatements config compose source) (statementsOf config compose source) := by
  intro layout assembly
  let template := source.template config compose assembly.templates
  have hmirroring : Mirroring template.compose := hcompose
  have hdocument := Parse.reads_document hmirroring (source.begin config assembly)
  have hphrases : phrasesOf config source.text
      = (Scan.document (source.begin config assembly).cursor).map Prod.fst := rfl
  have hturn : statementsOf config compose source ⟨layout, assembly.plain⟩
      = (Parse.inTurn Scan.document (Phrase.evaluateAll template)
          (source.begin config assembly).cursor (source.begin config assembly).site).map
        fun read => ((read.1, read.2.2.layout), ⟨layout, read.2.2.assembly⟩) := by
    unfold statementsOf Parse.inTurn
    rw [hphrases]
    cases Scan.document (source.begin config assembly).cursor with
    | none => rfl
    | some scanned =>
        show Option.bind (Phrase.evaluateAll template scanned.1
          (source.begin config assembly).site) _ = Option.map _ (Option.bind (Phrase.evaluateAll
            template scanned.1 (source.begin config assembly).site) _)
        cases Phrase.evaluateAll template scanned.1 (source.begin config assembly).site <;> rfl
  rw [hturn, ← hdocument]
  cases hread : Parse.document template (source.begin config assembly) with
  | ok nodes after =>
      have hstatements : readStatements config compose source (Site.mk layout assembly).assembly
          = .ok (nodes, after.layout) after.assembly :=
        readStatements_eq_ok.mpr ⟨after, hread, rfl, rfl⟩
      rw [plainly_of_ok hstatements]
      rfl
  | error fault after =>
      have hstatements : readStatements config compose source (Site.mk layout assembly).assembly
          = .error fault after.assembly := readStatements_of_fault hread
      rw [plainly_of_error hstatements]
      rfl

theorem matches_composeStep (hcompose : Mirroring compose) (source : Source) :
    Matches Composed.lineless (composeStep config compose source)
      (composed config compose source) := by
  have hpure : ∀ composed : Composed,
      Matches Composed.lineless (pure composed) (pure composed.lineless) := fun _ => matches_pure _
  refine (matches_readStatements hcompose source).bind fun read => ?_
  obtain ⟨nodes, layout?⟩ := read
  cases layout? with
  | none =>
      have hnodes : (nodes.map Node.lineless).map Node.lineless = nodes.map Node.lineless :=
        Node.map_lineless_lineless nodes
      have hroot : Matches Block.lineless (newRoot source.filename nodes)
          (plainly Block.lineless (newRoot source.filename (nodes.map Node.lineless))) :=
        matches_of_mirrors (mirrors_newRoot hnodes.symm) (mirrors_newRoot hnodes)
          fun _ _ hsame => hsame
      exact hroot.bind fun root => hpure { root }
  | some layout =>
      have hmirrors := mirrors_composeLayout hcompose source source rfl layout
      have hroot : Matches Block.lineless (composeLayout compose source layout)
          (plainly Block.lineless (composeLayout compose source layout)) :=
        matches_of_mirrors hmirrors hmirrors fun _ _ hsame => hsame
      exact hroot.bind fun root => hpure { root, layout := some layout.path }

/-! ## Composing under other names -/

section Follows

instance : Renames Layout := ⟨fun _ layout => layout⟩

variable {strict : Prop} {world : World} {other : Source → Assemble Composed}

theorem follows_newRoot {nodes nodes' : List Draft} (h : world.Relates nodes nodes')
    (filename : Option String) :
    Follows strict world (plainly Block.lineless (newRoot filename nodes))
      (plainly Block.lineless (newRoot filename nodes')) := by
  refine follows_plainly fun assembly assembly' hshares => ?_
  have hle := world.le_given 1
  have hroot := hshares.fresh.map₂ (h.mono hle) (fun id nodes => Block.mk id 1 { filename } nodes)
    fun _ _ _ => rfl
  exact ⟨world.given 1, _, _, _, _, hle, rfl, rfl, relates_lineless hroot, hshares.taken⟩

theorem homelessMixins_rename (σ : Renaming) (mixins : OrderedMap String Draft) (tree : Draft) :
    homelessMixins (rename σ mixins) (rename σ tree) = rename σ (homelessMixins mixins tree) := by
  have hplaced : identities (rename σ tree) = (identities tree).map (Option.map σ.ids) :=
    identities_relabel σ.ids tree
  have hvalues : (rename σ mixins).values = mixins.values.map (rename σ) := by
    simp only [OrderedMap.values, rename, List.map_map]
    rfl
  unfold homelessMixins
  rw [hplaced, hvalues]
  show _ = (mixins.values.filter _).map (rename σ)
  rw [List.filter_map]
  congr 1
  refine List.filter_congr fun mixin _ => ?_
  rw [Function.comp_apply, show (rename σ mixin).id? = mixin.id?.map σ.ids from
    Node.id?_relabel σ.ids mixin, Node.contains_map (Option.map_injective σ.injective)]

/-- Mixins without a place are put to the front. -/
theorem hoistMixins_of_homeless (layout : Layout) {root : Block BlockId Draft}
    {assembly : Assembly} {mixin : Draft} {mixins : List Draft}
    (h : homelessMixins assembly.mixins (.ofBlock (assembly.store.resolveBlock root))
      = mixin :: mixins) :
    ∃ log, hoistMixins layout root assembly =
      let current := assembly.store.read root
      let filled := { current with nodes := (mixin :: mixins) ++ current.nodes }
      .ok filled { assembly with store := assembly.store.write filled, log } := by
  have hget : (get : Assemble Assembly).run assembly = .ok assembly assembly := rfl
  show ∃ log, (hoistMixins layout root).run assembly = _
  rw [hoistMixins, EStateM.run_bind, hget]
  dsimp only
  rw [h]
  exact ⟨_, rfl⟩

theorem follows_hoistMixins (layout : Layout) {root root' : Block BlockId Draft}
    (h : world.Relates root root') :
    Follows strict world (plainly Block.lineless (hoistMixins layout root))
      (plainly Block.lineless (hoistMixins layout root')) := by
  refine follows_plainly fun assembly assembly' hshares => ?_
  obtain ⟨hsupported, hrenamed⟩ := hshares.mixins.map₂ (relates_ofBlock (hshares.resolveBlock h))
    homelessMixins homelessMixins_rename
  cases hmoved : homelessMixins assembly.mixins (.ofBlock (assembly.store.resolveBlock root)) with
  | nil =>
      rw [hmoved] at hrenamed
      exact ⟨world, _, _, _, _, world.le_refl, Placement.hoistMixins_of_placed layout hmoved,
        Placement.hoistMixins_of_placed layout hrenamed, relates_lineless h, hshares⟩
  | cons mixin mixins =>
      rw [hmoved] at hrenamed hsupported
      have hfilled := (hshares.read h).map₂ ⟨hsupported, rfl⟩
        (fun current hoisted => { current with nodes := hoisted ++ current.nodes })
        fun _ _ _ => by simp [rename, Block.relabel]
      have hwritten := hshares.write hfilled
      obtain ⟨log, hrun⟩ := hoistMixins_of_homeless layout hmoved
      obtain ⟨log', hrun'⟩ := hoistMixins_of_homeless layout hrenamed
      exact ⟨world, _, _, _, _, world.le_refl, hrun, hrun', relates_lineless hfilled,
        { hwritten with next := hwritten.next, renamed := hwritten.renamed }⟩

/-- Composing a layout is composing it without mixins, putting the mixins back afterwards, and
    moving those that have no place. -/
theorem plainly_composeLayout (compose : Source → Assemble Composed) (source : Source)
    (layout : Layout) (site : Site) :
    plainly Block.lineless (composeLayout compose source layout) site
      = (plainly Composed.lineless (compose (layout.source source))
          { site with assembly := { site.assembly with mixins := .empty } }).bind
        fun outcome =>
          let mixins := linelessMixins site.assembly.mixins
          plainly Block.lineless (hoistMixins layout outcome.1.root)
            { outcome.2 with assembly := { outcome.2.assembly with mixins } } := by
  have hhoist : ∀ (composed : Composed) (after : Assembly),
      plainly Block.lineless (hoistMixins layout composed.root) ⟨site.layout, after⟩
        = plainly Block.lineless (hoistMixins layout composed.lineless.root)
          ⟨site.layout, after.plain⟩ := by
    intro composed after
    have hlike : composed.root.Like composed.lineless.root :=
      (Block.lineless_lineless composed.root).symm
    have hmatches : Matches Block.lineless (hoistMixins layout composed.root)
        (plainly Block.lineless (hoistMixins layout composed.lineless.root)) :=
      matches_of_mirrors (mirrors_hoistMixins layout hlike) (mirrors_hoistMixins layout hlike.symm)
        fun _ _ hsame => hsame
    exact hmatches site.layout after
  cases hrun : compose (layout.source source) { site.assembly with mixins := .empty } with
  | error fault after =>
      have hlayout : composeLayout compose source layout site.assembly = .error fault after := by
        show EStateM.bind (compose (layout.source source)) _
          { site.assembly with mixins := .empty } = _
        rw [EStateM.bind, hrun]
      have hnone : plainly Composed.lineless (compose (layout.source source))
          { site with assembly := { site.assembly with mixins := .empty } } = none :=
        plainly_of_error hrun
      rw [plainly_of_error hlayout, hnone]
      rfl
  | ok composed after =>
      have hlayout : composeLayout compose source layout site.assembly
          = hoistMixins layout composed.root { after with mixins := site.assembly.mixins } := by
        show EStateM.bind (compose (layout.source source)) _
          { site.assembly with mixins := .empty } = _
        rw [EStateM.bind, hrun]
        rfl
      have hplain : plainly Block.lineless (composeLayout compose source layout) site
          = plainly Block.lineless (hoistMixins layout composed.root)
            ⟨site.layout, { after with mixins := site.assembly.mixins }⟩ := by
        rw [plainly, hlayout]
        rfl
      have hsome : plainly Composed.lineless (compose (layout.source source))
          { site with assembly := { site.assembly with mixins := .empty } }
            = some (composed.lineless, ⟨site.layout, after.plain⟩) := plainly_of_ok hrun
      rw [hsome, hplain]
      exact hhoist composed { after with mixins := site.assembly.mixins }

theorem Source.Under.path {source source' : Source} (h : source.Under strict source') :
    (∀ path, source.path.contains path → source'.path.contains path)
      ∧ (strict → source'.path = source.path) := by
  unfold Source.path
  rw [h.filename]
  refine ⟨fun path hpath => ?_, fun hstrict => by rw [h.same hstrict]⟩
  rw [List.contains_iff_mem, List.mem_append] at hpath ⊢
  exact hpath.imp_right fun hlineage =>
    List.contains_iff_mem.mp (h.lineage path (List.contains_iff_mem.mpr hlineage))

theorem follows_composeLayout (h : Composes strict world compose other) {source source' : Source}
    (hsource : source.Under strict source') (layout : Layout) :
    Follows strict world (plainly Block.lineless (composeLayout compose source layout))
      (plainly Block.lineless (composeLayout other source' layout)) := by
  intro site site' hsites
  rw [plainly_composeLayout, plainly_composeLayout]
  have hlayout : (layout.source source).Under strict (layout.source source') :=
    ⟨rfl, rfl, hsource.path.1, hsource.path.2⟩
  have hshares := hsites.assembly
  have hempty : world.Sites { site with assembly := { site.assembly with mixins := .empty } }
      { site' with assembly := { site'.assembly with mixins := .empty } } :=
    ⟨hsites.layout, { hshares with
      next := hshares.next, renamed := hshares.renamed,
      mixins := World.relates_of_fixed fun _ => rfl }⟩
  have hcomposed := h world world.le_refl _ _ hlayout _ _ hempty
  generalize plainly Composed.lineless (compose (layout.source source)) _ = first at hcomposed
  generalize plainly Composed.lineless (other (layout.source source')) _ = second at hcomposed
  cases hcomposed with
  | failed => exact .failed
  | refused hstrict => exact .refused hstrict
  | @done later composed composed' after after' hle hresult hafter =>
      have hmixins := hshares.mixins.map linelessMixins fun σ =>
        OrderedMap.mapValues_rename σ (Node.lineless_relabel σ.ids)
      have hroot := hresult.map Composed.root fun _ _ => rfl
      have hrestored : later.Sites
          { after with
            assembly := { after.assembly with mixins := linelessMixins site.assembly.mixins } }
          { after' with
            assembly := { after'.assembly with mixins := linelessMixins site'.assembly.mixins } } :=
        ⟨hafter.layout, { hafter.assembly with
          next := hafter.assembly.next, renamed := hafter.assembly.renamed,
          mixins := hmixins.mono hle }⟩
      exact World.Ends.earlier (follows_hoistMixins layout hroot _ _ hrestored) hle

theorem World.Sites.entering {site site' : Site} (h : world.Sites site site') :
    world.Sites site.entering site'.entering :=
  ⟨rfl, { h.assembly with
    next := h.assembly.next, renamed := h.assembly.renamed,
    templates := by
      dsimp only [Site.entering]
      rw [h.assembly.templates, Nat.add_right_comm] }⟩

theorem follows_statementsOf (h : Composes strict world compose other) {source source' : Source}
    (hsource : source.Under strict source') :
    Follows strict world (statementsOf config compose source)
      (statementsOf config other source') := by
  intro site site' hsites
  have hshares := hsites.assembly
  have htemplates : world.Templates strict
      (source.template config compose site.assembly.templates)
      (source'.template config other site'.assembly.templates) :=
    ⟨rfl, hsource.filename, hshares.templates, hsource.path.1, hsource.path.2, h⟩
  unfold statementsOf
  dsimp only
  rw [hsource.text]
  cases phrasesOf config source.text with
  | none => exact .failed
  | some phrases =>
      have heach : ∀ phrase ∈ phrases, ∀ {world template other},
          World.Templates strict world template other →
            Follows strict world (phrase.evaluate template) (phrase.evaluate other) :=
        fun phrase _ => follows_evaluate phrase
      have hevaluated := follows_evaluateAll heach htemplates _ _ hsites.entering
      dsimp only [Option.bind_eq_bind, Option.bind_some]
      generalize Phrase.evaluateAll (source.template config compose site.assembly.templates)
        phrases _ = first at hevaluated ⊢
      generalize Phrase.evaluateAll (source'.template config other site'.assembly.templates)
        phrases _ = second at hevaluated ⊢
      cases hevaluated with
      | failed => exact .failed
      | refused hstrict => exact .refused hstrict
      | @done later nodes nodes' after after' hle hnodes hafter =>
          have hlayout : later.Relates after.layout after'.layout := by
            rw [hafter.layout]
            exact World.relates_of_fixed fun σ => by cases after.layout <;> rfl
          exact .done hle (hnodes.pair hlayout) ⟨hsites.layout, hafter.assembly⟩

theorem follows_composed (h : Composes strict world compose other) {source source' : Source}
    (hsource : source.Under strict source') :
    Follows strict world (composed config compose source) (composed config other source') := by
  refine (follows_statementsOf h hsource).bind fun later hle read read' hread => ?_
  obtain ⟨nodes, layout?⟩ := read
  obtain ⟨nodes', layout?'⟩ := read'
  have hnodes : later.Relates nodes nodes' := hread.map Prod.fst fun _ _ => rfl
  have hlayout : layout?' = layout? := by
    have hrenamed : layout?' = rename later.names layout? :=
      (hread.map Prod.snd fun _ _ => rfl).renamed
    rw [hrenamed]
    cases layout? <;> rfl
  subst hlayout
  cases layout?' with
  | none =>
      dsimp only
      rw [hsource.filename]
      refine (follows_newRoot hnodes source.filename).bind fun last _ root root' hroot => ?_
      exact follows_pure (hroot.map (fun root => Composed.mk root none) fun _ _ => rfl)
  | some layout =>
      have hcompose : Composes strict later compose other := fun last hlast =>
        h last (World.le_trans hle hlast)
      refine (follows_composeLayout hcompose hsource layout).bind fun last _ root root' hroot => ?_
      exact follows_pure (hroot.map (fun root => Composed.mk root (some layout.path))
        fun _ _ => rfl)

/-- **Composing a template** goes on under other names in the same way, if composing those it names
    does. -/
theorem composes_composeStep (hcompose : Mirroring compose) (hother : Mirroring other)
    (h : Composes strict world compose other) :
    Composes strict world (composeStep config compose) (composeStep config other) := by
  intro later hle source source' hsource site site' hsites
  have hlater : Composes strict later compose other := fun last hlast =>
    h last (World.le_trans hle hlast)
  rw [matches_composeStep hcompose source site.layout site.assembly,
    matches_composeStep hother source' site'.layout site'.assembly]
  exact follows_composed hlater hsource _ _ ⟨hsites.layout, hsites.assembly.plain⟩

/-- With as much fuel as a composition has, or more of it, a template is composed in the same
    way. -/
theorem composes_composeWith (config : Config) (fuel' : Nat) : ∀ fuel, fuel' ≤ fuel →
    (strict → fuel' = fuel) → ∀ world,
      Composes strict world (composeWith config fuel) (composeWith config fuel') := by
  induction fuel' with
  | zero =>
      intro fuel _ hsame world later _ source source' _ site site' _
      by_cases hstrict : strict
      · rw [← hsame hstrict]
        exact .failed
      · exact .refused hstrict
  | succ fuel' ih =>
      intro fuel hle hsame world
      cases fuel with
      | zero => exact absurd hle (Nat.not_succ_le_zero _)
      | succ fuel =>
          exact composes_composeStep (mirroring_composeWith config fuel)
            (mirroring_composeWith config fuel')
            (ih fuel (Nat.le_of_succ_le_succ hle) (fun hstrict => Nat.succ.inj (hsame hstrict))
              world)

end Follows

end Stencil
