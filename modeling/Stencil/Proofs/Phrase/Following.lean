import Stencil.Proofs.Phrase.Renaming

/-! # Evaluating phrases under other names

    A phrase is evaluated in two related states with related results
    (`follows_evaluate`), by induction on the phrase: `follows_begin` and
    `follows_finish` say so of each construct.  For an include this takes that
    composing the included template goes on under other names too (`Composes`). -/

namespace Stencil

open Evaluate

/-! ## Elements -/

section Elements

variable (σ : Renaming)

theorem Node.block?_rename (node : Draft) : (rename σ node).block? = rename σ node.block? := by
  obtain ⟨own, line, kind, children⟩ := node
  show (Node.relabel σ.ids _).block? = _
  rw [relabel_make]
  cases kind <;> rfl

theorem Node.isCode_rename (node : Draft) : (rename σ node).isCode = node.isCode := by
  obtain ⟨own, line, kind, children⟩ := node
  show (Node.relabel σ.ids _).isCode = _
  rw [relabel_make]
  cases kind <;> rfl

theorem Parse.joinBody_rename (opened : OpenElement) (body : Block BlockId Draft) :
    joinBody (rename σ opened) (rename σ body) = rename σ (joinBody opened body) := by
  have hempty : (rename σ opened).body.nodes.isEmpty = opened.body.nodes.isEmpty :=
    List.isEmpty_map
  unfold joinBody
  rw [hempty]
  split
  · rfl
  · simp [rename, Block.relabel]

theorem Construct.place_rename (opened : Parse.OpenElement) (node : Draft) :
    place (rename σ opened) (rename σ node) = rename σ (place opened node) := by
  unfold place
  rw [Node.block?_rename, Node.isCode_rename]
  cases node.block? with
  | some own => exact Parse.joinBody_rename σ opened own
  | none =>
      show (if node.isCode then _ else _) = _
      dsimp only
      split
      · rfl
      · simp [rename, Block.relabel]

theorem Construct.foldl_place_rename (nodes : List Draft) : ∀ opened : Parse.OpenElement,
    (rename σ nodes).foldl place (rename σ opened) = rename σ (nodes.foldl place opened) := by
  induction nodes with
  | nil => exact fun _ => rfl
  | cons node nodes ih =>
      intro opened
      show (rename σ nodes).foldl place (place (rename σ opened) (rename σ node)) = _
      rw [place_rename, ih, List.foldl_cons]

end Elements

/-! ## Templates -/

/-- Two ways to read the same text: under the same name, and with the same paths that must not be
    loaded again, or more of them in the second one. -/
structure Source.Under (strict : Prop) (source other : Source) : Prop where
  text : other.text = source.text
  filename : other.filename = source.filename
  lineage : ∀ path, source.lineage.contains path → other.lineage.contains path
  same : strict → other.lineage = source.lineage

/-- Composing goes on under other names in the same way. -/
def Composes (strict : Prop) (world : World) (compose other : Source → Assemble Composed) : Prop :=
  ∀ later, world ≤ later → ∀ source source', source.Under strict source' →
    Follows strict later (plainly Composed.lineless (compose source))
      (plainly Composed.lineless (other source'))

/-- A template, and the same template in another state. -/
structure World.Templates (strict : Prop) (world : World) (template other : Template) : Prop where
  config : other.config = template.config
  filename : other.filename = template.filename
  owner : other.owner = template.owner + world.names.shift
  lineage : ∀ path, template.lineage.contains path → other.lineage.contains path
  same : strict → other.lineage = template.lineage
  compose : Composes strict world template.compose other.compose

section Templates

variable {strict : Prop} {world later : World} {template other : Template}

theorem World.Templates.mono (h : world.Templates strict template other) (hle : world ≤ later) :
    later.Templates strict template other where
  config := h.config
  filename := h.filename
  owner := h.owner.trans (congrArg (_ + ·) hle.shift.symm)
  lineage := h.lineage
  same := h.same
  compose := fun last hlast => h.compose last (World.le_trans hle hlast)

end Templates

/-! ## Constructs -/

section Constructs

variable {strict : Prop} {world : World} {template other : Template}

theorem OpenElement.code_rename (σ : Renaming) (opened : Parse.OpenElement) :
    (rename σ opened).code.toList = rename σ opened.code.toList := by
  obtain ⟨element, code, body⟩ := opened
  cases code <;> rfl

theorem follows_closeElement (role : Role) {opened opened' : Parse.OpenElement}
    (h : world.Relates opened opened') :
    Follows strict world (Construct.closeElement role opened)
      (Construct.closeElement role opened') := by
  have helement : opened'.element = opened.element := by
    rw [h.renamed]
    rfl
  cases role with
  | tag interpolated =>
      have hparts := h.map
        (fun opened : Parse.OpenElement => opened.code.toList ++ [Node.ofBlock opened.body])
        fun σ opened => by
          rw [OpenElement.code_rename]
          simp [rename, Node.relabel_ofBlock]
      simp only [Construct.closeElement, helement]
      exact follows_newNode hparts fun _ => rfl
  | call args =>
      have hparts := h.map (fun opened : Parse.OpenElement => opened.code.toList
          ++ if opened.body.nodes.isEmpty then [] else [Node.ofBlock opened.body])
        fun σ opened => by
          have hempty : (rename σ opened).body.nodes.isEmpty = opened.body.nodes.isEmpty :=
            List.isEmpty_map
          rw [OpenElement.code_rename, hempty]
          split <;> simp [rename, Node.relabel_ofBlock]
      simp only [Construct.closeElement, helement]
      exact follows_newNode hparts fun _ => rfl

theorem follows_uncycled (h : world.Templates strict template other) (path : String) :
    Follows strict world (uncycled template path) (uncycled other path) := by
  unfold uncycled
  by_cases hother : other.lineage.contains path
  · rw [if_pos hother]
    by_cases hstrict : strict
    · rw [h.same hstrict] at hother
      rw [if_pos hother]
      exact follows_failure
    · exact follows_refused hstrict
  · have htemplate : ¬ template.lineage.contains path := fun hpath => hother (h.lineage path hpath)
    rw [if_neg hother, if_neg htemplate]
    exact follows_pure (World.relates_of_fixed fun _ => rfl)

/-- The state in which an included template is composed. -/
def Site.copied (site : Site) : Site :=
  let (store, registry) := site.assembly.registry.snapshot site.assembly.store
  { site with assembly := { site.assembly with store, registry } }

theorem World.Sites.copied {site site' : Site} (h : world.Sites site site') :
    world.copied.Sites site.copied site'.copied := by
  obtain ⟨names, next, fits⟩ := world
  obtain rfl : site.assembly.store.next = next := h.assembly.next
  have hshares := h.assembly
  have hle := World.le_copied ⟨names, _, fits⟩
  have hcurrent := hshares.current.supported
  have hregistry := hshares.registry.supported
  obtain ⟨hstore', hregistry'⟩ := Registry.snapshot_rename hshares.current.renamed
    hshares.renamed fits hcurrent site.assembly.registry
  obtain ⟨hold, hnew⟩ := Registry.supported_snapshot hcurrent hregistry
  rw [← hshares.registry.renamed] at hstore' hregistry'
  have hnext : site'.assembly.store.next + site'.assembly.store.next
      = (World.copied ⟨names, _, fits⟩).names.ids (site.assembly.store.next
        + site.assembly.store.next) := by
    rw [hshares.renamed]
    exact (Renaming.copying_new fits _).symm
  exact ⟨h.layout, ⟨rfl, hnext, ⟨hold, hstore'⟩, ⟨hnew, hregistry'⟩, hshares.mixins.mono hle,
    hshares.templates⟩⟩

/-- Composing an included template is composing it in the copied state, and putting the named blocks
    back afterwards. -/
theorem plainly_composeInclude (template : Template) (source : Source) (site : Site) :
    plainly Composed.lineless (Parse.composeInclude template source) site
      = (plainly Composed.lineless (template.compose source) site.copied).map
          fun outcome => (outcome.1, { outcome.2 with
            assembly := { outcome.2.assembly with
              registry := site.assembly.registry.lineless } }) := by
  cases hrun : template.compose source site.copied.assembly with
  | ok composed after =>
      have hinclude : Parse.composeInclude template source site.assembly
          = .ok composed { after with registry := site.assembly.registry } := by
        show EStateM.bind (template.compose source) _ site.copied.assembly = _
        rw [EStateM.bind, hrun]
        rfl
      rw [plainly_of_ok hrun, plainly_of_ok hinclude]
      rfl
  | error fault after =>
      have hinclude : Parse.composeInclude template source site.assembly = .error fault after := by
        show EStateM.bind (template.compose source) _ site.copied.assembly = _
        rw [EStateM.bind, hrun]
      rw [plainly_of_error hrun, plainly_of_error hinclude]
      rfl

theorem follows_composeInclude (h : world.Templates strict template other) {source source' : Source}
    (hsource : source.Under strict source') :
    Follows strict world (plainly Composed.lineless (Parse.composeInclude template source))
      (plainly Composed.lineless (Parse.composeInclude other source')) := by
  intro site site' hsites
  rw [plainly_composeInclude, plainly_composeInclude]
  have hends := h.compose world.copied world.le_copied source source' hsource _ _ hsites.copied
  generalize plainly Composed.lineless (template.compose source) site.copied = first at hends
  generalize plainly Composed.lineless (other.compose source') site'.copied = second at hends
  cases hends with
  | failed => exact .failed
  | refused hstrict => exact .refused hstrict
  | done hle hresult hafter =>
      have hregistry := hsites.assembly.registry.map Registry.lineless fun σ =>
        OrderedMap.mapValues_rename σ (Definition.lineless_rename σ)
      have hwhole := World.le_trans world.le_copied hle
      exact .done hwhole hresult ⟨hafter.layout, { hafter.assembly with
        next := hafter.assembly.next
        renamed := hafter.assembly.renamed
        registry := hregistry.mono hwhole }⟩

theorem follows_includedRoot (h : world.Templates strict template other) (path : String) :
    Follows strict world (Construct.includedRoot template path)
      (Construct.includedRoot other path) := by
  refine (follows_uncycled h path).bind fun second hsecond _ _ _ =>
    (follows_loaded h.config path).bind fun third hthird text text' htext => ?_
  obtain rfl : text' = text := htext.renamed
  have hle := World.le_trans hsecond hthird
  have hsource : Source.Under strict
      { text := text', filename := some path, lineage := template.lineage }
      { text := text', filename := some path, lineage := other.lineage } :=
    ⟨rfl, rfl, h.lineage, h.same⟩
  refine (follows_composeInclude (h.mono hle) hsource).bind
    fun last _ composed composed' hroot => ?_
  exact follows_nameRoot (hroot.map Composed.root fun _ _ => rfl) path

theorem follows_beginTemplate (h : world.Templates strict template other) (path : String) :
    Follows strict world (Construct.beginTemplate template path)
      (Construct.beginTemplate other path) := by
  refine (follows_includedRoot h path).bind fun second _ root root' hroot =>
    (follows_includeTarget hroot).bind fun third hthird target target' htarget => ?_
  exact follows_pure ((hroot.mono hthird).map₂ htarget Begun.included fun _ _ _ => rfl)

theorem follows_beginInclude (h : world.Templates strict template other) (target : String) :
    Follows strict world (Construct.beginInclude template target)
      (Construct.beginInclude other target) := by
  unfold Construct.beginInclude
  rw [h.filename, h.config]
  cases template.filename with
  | none => exact follows_failure
  | some filename =>
      dsimp only
      split
      · exact follows_beginTemplate h _
      · refine (follows_loaded h.config _).bind fun later _ text text' htext => ?_
        exact follows_pure (htext.map Begun.literal fun _ _ => rfl)

theorem follows_beginExtends (h : world.Templates strict template other) (target : String) :
    Follows strict world (Construct.beginExtends template target)
      (Construct.beginExtends other target) := by
  intro site site' hsites
  unfold Construct.beginExtends Template.layout?
  rw [hsites.layout, h.filename, h.config]
  split
  · exact .failed
  · cases template.filename with
    | none => exact .failed
    | some filename =>
        dsimp only [Option.bind_eq_bind, Option.bind_some]
        generalize Parse.resolvePath template.config.extension filename target = path
        by_cases hother : other.lineage.contains path
        · rw [if_pos hother]
          by_cases hstrict : strict
          · rw [h.same hstrict] at hother
            rw [if_pos hother]
            exact .failed
          · exact .refused hstrict
        · have htemplate : ¬ template.lineage.contains path := fun hpath =>
            hother (h.lineage path hpath)
          rw [if_neg hother, if_neg htemplate]
          cases template.config.activeLoader.load path with
          | error fault => exact .failed
          | ok text =>
              exact .done world.le_refl (World.relates_of_fixed fun _ => rfl)
                ⟨rfl, hsites.assembly⟩

theorem follows_begin (h : world.Templates strict template other) (construct : Construct) :
    Follows strict world (construct.begin template) (construct.begin other) := by
  have hnothing : Follows strict world (pure Begun.nothing) (pure Begun.nothing) :=
    follows_pure (World.relates_of_fixed fun _ => rfl)
  cases construct with
  | element head role =>
      refine (follows_newBlock World.relates_nil {}).bind fun later _ body body' hbody => ?_
      exact follows_pure (hbody.map Begun.element fun _ _ => rfl)
  | «include» target => exact follows_beginInclude h target
  | «extends» target => exact follows_beginExtends h target
  | _ => exact hnothing

theorem follows_defineNamed (h : world.Templates strict template other) (name : String)
    (mode : BlockMode) {content content' : Block BlockId Draft}
    (hcontent : world.Relates content content') :
    Follows strict world (Construct.defineNamed template name mode content)
      (Construct.defineNamed other name mode content') := by
  have hblock := hcontent.map (fun content : Block BlockId Draft =>
    { content with props := { content.props with mode, filename := template.filename } })
    fun _ _ => rfl
  unfold Construct.defineNamed
  rw [h.filename, h.owner]
  exact follows_defineBlock hblock name template.owner

theorem relates_ofBlock {block block' : Block BlockId Draft} (h : world.Relates block block') :
    world.Relates (Node.ofBlock block) (Node.ofBlock block') :=
  h.map Node.ofBlock fun σ block => (Node.relabel_ofBlock σ.ids block).symm

theorem filterMap_block?_rename (σ : Renaming) (nodes : List Draft) :
    (rename σ nodes).filterMap Node.block? = rename σ (nodes.filterMap Node.block?) := by
  show (nodes.map (rename σ)).filterMap Node.block? = (nodes.filterMap Node.block?).map (rename σ)
  rw [List.filterMap_map, List.map_filterMap]
  exact List.filterMap_congr fun node _ => Node.block?_rename σ node

theorem follows_enterMixin (name : String) {definition definition' : Draft}
    (h : world.Relates definition definition') :
    Follows strict world (Construct.enterMixin name definition)
      (Construct.enterMixin name definition') := by
  intro site site' hsites
  have hshares := hsites.assembly
  have hmixins := hshares.mixins.map₂ h (fun mixins definition => mixins.insert name definition)
    fun σ mixins definition =>
      (OrderedMap.rename_insert (rename_name_injective σ) mixins name definition).symm
  exact .done world.le_refl (World.relates_of_fixed fun _ => rfl) ⟨hsites.layout,
    { hshares with next := hshares.next, renamed := hshares.renamed, mixins := hmixins }⟩

theorem follows_finish (h : world.Templates strict template other) (construct : Construct)
    {begun begun' : Begun} (hbegun : world.Relates begun begun') {nodes nodes' : List Draft}
    (hnodes : world.Relates nodes nodes') :
    Follows strict world (construct.finish template begun nodes)
      (construct.finish other begun' nodes') := by
  cases construct with
  | node kind =>
      refine (follows_newNode hnodes fun _ => ?_).bind fun _ _ _ _ hnode =>
        follows_pure hnode.singleton
      cases kind <;> first | rfl | contradiction
  | body props =>
      refine (follows_newBlock hnodes props).bind fun _ _ _ _ hblock => follows_pure ?_
      exact (relates_ofBlock hblock).singleton
  | rawBody => exact follows_fresh.bind fun _ hle _ _ _ => follows_pure (hnodes.mono hle)
  | element head role =>
      obtain ⟨hsupported, rfl⟩ := hbegun
      cases begun with
      | element empty =>
          have hempty : world.Relates empty (rename world.names empty) :=
            ⟨fun σ τ hshift hsame => Begun.element.inj (hsupported σ τ hshift hsame), rfl⟩
          have hopened := hempty.map₂ hnodes
            (fun empty nodes => nodes.foldl Construct.place { element := head, body := empty })
            fun σ empty nodes =>
              Construct.foldl_place_rename σ nodes { element := head, body := empty }
          exact (follows_closeElement role hopened).bind fun _ _ _ _ hnode =>
            follows_pure hnode.singleton
      | _ => exact follows_failure
  | mixin name args =>
      refine (follows_newNode hnodes fun _ => rfl).bind fun _ _ definition definition' hnode => ?_
      exact (follows_enterMixin name hnode).bind fun _ hle _ _ _ =>
        follows_pure (hnode.mono hle).singleton
  | named name mode =>
      obtain ⟨hsupported, hrenamed⟩ := hnodes.map (fun nodes => nodes.filterMap Node.block?)
        filterMap_block?_rename
      dsimp only [Construct.finish]
      rw [hrenamed]
      generalize nodes.filterMap Node.block? = blocks at hsupported
      rcases blocks with _ | ⟨content, _ | ⟨next, rest⟩⟩
      · exact follows_failure
      · have hcontent : world.Relates content (rename world.names content) :=
          ⟨supported_list.mp hsupported content List.mem_cons_self, rfl⟩
        exact (follows_defineNamed h name mode hcontent).bind fun _ _ _ _ hblock =>
          follows_pure (relates_ofBlock hblock).singleton
      · exact follows_failure
  | «include» target =>
      obtain ⟨hsupported, rfl⟩ := hbegun
      obtain ⟨hheld, rfl⟩ := hnodes
      cases begun with
      | included root below =>
          have hroot : world.Relates root (rename world.names root) :=
            ⟨fun σ τ hshift hsame => (Begun.included.inj (hsupported σ τ hshift hsame)).1, rfl⟩
          have hbelow : world.Relates below (rename world.names below) :=
            ⟨fun σ τ hshift hsame => (Begun.included.inj (hsupported σ τ hshift hsame)).2, rfl⟩
          cases nodes with
          | nil => exact follows_pure (relates_ofBlock hroot).singleton
          | cons content rest =>
              have hcontent : world.Relates content (rename world.names content) :=
                ⟨supported_list.mp hheld content List.mem_cons_self, rfl⟩
              exact (follows_pushInto hbelow hcontent).bind fun _ hle _ _ _ =>
                follows_pure (relates_ofBlock (hroot.mono hle)).singleton
      | literal text =>
          cases nodes with
          | nil =>
              exact (follows_newNode World.relates_nil fun _ => rfl).bind fun _ _ _ _ hnode =>
                follows_pure hnode.singleton
          | cons content rest => exact follows_failure
      | _ => exact follows_failure
  | «extends» target =>
      exact (follows_newNode World.relates_nil fun _ => rfl).bind fun _ _ _ _ hnode =>
        follows_pure hnode.singleton

end Constructs

/-! ## Phrases -/

section Phrases

variable {strict : Prop}

/-- Phrases are evaluated under other names in the same way if each of them is. -/
theorem follows_evaluateAll {phrases : List Phrase} (hphrases : ∀ phrase ∈ phrases,
    ∀ {world template other}, world.Templates strict template other →
      Follows strict world (phrase.evaluate template) (phrase.evaluate other)) :
    ∀ {world template other}, world.Templates strict template other →
      Follows strict world (Phrase.evaluateAll template phrases)
        (Phrase.evaluateAll other phrases) := by
  induction phrases with
  | nil =>
      intro world template other h
      rw [Phrase.evaluateAll_nil, Phrase.evaluateAll_nil]
      exact follows_pure World.relates_nil
  | cons phrase phrases ih =>
      intro world template other h
      rw [Phrase.evaluateAll_cons, Phrase.evaluateAll_cons]
      refine (hphrases phrase List.mem_cons_self h).bind
        fun second hsecond nodes nodes' hnodes => ?_
      refine (ih (fun phrase hphrase => hphrases phrase (List.mem_cons_of_mem _ hphrase))
        (h.mono hsecond)).bind fun third hthird more more' hmore => ?_
      exact follows_pure ((hnodes.mono hthird).append hmore)

/-- **Evaluating a phrase** goes on under other names in the same way. -/
theorem follows_evaluate (phrase : Phrase) : ∀ {world : World} {template other : Template},
    world.Templates strict template other →
      Follows strict world (phrase.evaluate template) (phrase.evaluate other) := by
  induction phrase using Phrase.induct with
  | h construct parts ih =>
      intro world template other h
      rw [Phrase.evaluate_make, Phrase.evaluate_make]
      refine (follows_begin h construct).bind fun second hsecond begun begun' hbegun => ?_
      refine (follows_evaluateAll ih (h.mono hsecond)).bind
        fun third hthird nodes nodes' hnodes => ?_
      exact follows_finish ((h.mono hsecond).mono hthird) construct (hbegun.mono hthird) hnodes

end Phrases

end Stencil
