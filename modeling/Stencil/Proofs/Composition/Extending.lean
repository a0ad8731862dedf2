import Stencil.Proofs.Composition.BlankLines
import Stencil.Proofs.Phrase.Composing
import Stencil.Proofs.Phrase.Neutral

/-! # Extending templates — only definitions matter

    Of a template with a layout, the statements count for what they leave in the
    named blocks and mixins that the templates share.  So nothing changes when
    the layout is named at another place between the statements of the template,
    or when there are more or fewer statements that are neutral
    (`parseText_extending`).

    All such templates are compared with one evaluation: that of the statements
    that are not neutral, with the layout noted at the end (`extending`).  It
    gives away fewer identities than the template does. -/

namespace Stencil

open Evaluate

/-- Statements of which one, at top level, names a layout: the `target` it names, and the `others`,
    in which no layout is named at any depth. -/
structure ExtendsOnce (phrases : List Phrase) (target : String) (others : List Phrase) : Prop where
  split : ∃ before after, phrases = before ++ .make (.extends target) [] :: after
    ∧ others = before ++ after
  layoutless : ∀ phrase ∈ others, phrase.layoutless

/-! ## The place of the layout's name -/

section Place

variable {strict : Prop} {world : World} {template : Template} {target : String}
  {phrases others : List Phrase}

/-- A layout that can be extended is loaded from the path that its name leads to. -/
theorem Template.layout?_eq_some {layout : Layout} (h : template.layout? target = some layout) :
    ∃ name, template.filename = some name
      ∧ layout.path = Parse.resolvePath template.config.extension name target
      ∧ template.config.activeLoader.load layout.path = .ok layout.text := by
  obtain ⟨name, hname, hfound⟩ := Option.bind_eq_some_iff.mp h
  dsimp only at hfound
  split at hfound
  · cases hfound
  · split at hfound
    · next hload =>
        cases hfound
        exact ⟨name, hname, rfl, hload⟩
    · cases hfound

/-- Notes a layout. -/
def noteLayout (template : Template) (target : String) : Evaluate Unit := do
  let _ ← Construct.beginExtends template target

theorem noteLayout_apply (template : Template) (target : String) (site : Site) :
    noteLayout template target site
      = (if site.layout.isSome then none else template.layout? target).map
          fun layout => ((), site.noting (some layout)) := by
  show Option.bind (Construct.beginExtends template target site) _ = _
  unfold Construct.beginExtends
  split
  · rfl
  · cases template.layout? target <;> rfl

theorem evaluate_extends (template : Template) (target : String) :
    (Phrase.make (.extends target) []).evaluate template = (do
      noteLayout template target
      return [← newNode (.literal "") []]) := by
  simp only [Phrase.evaluate_make, Phrase.evaluateAll_nil, noteLayout, Construct.begin,
    Construct.finish, pure_bind, bind_assoc]

/-- Evaluates some statements, and notes a layout after them. -/
def runAndNote (template : Template) (target : String) (phrases : List Phrase) :
    Evaluate Unit := do
  Phrase.run template phrases
  noteLayout template target

/-- A layout is noted, or noting it fails. -/
theorem layout_of_runAndNote {site after : Site}
    (h : runAndNote template target phrases site = some ((), after)) :
    ∃ layout, after.layout = some layout := by
  rw [runAndNote, bind_apply] at h
  obtain ⟨outcome, -, hnoted⟩ := Option.bind_eq_some_iff.mp h
  rw [noteLayout_apply] at hnoted
  obtain ⟨layout, -, hsite⟩ := Option.map_eq_some_iff.mp hnoted
  cases hsite
  exact ⟨layout, rfl⟩

/-- The layout may be noted after what comes behind its name, neutral statements left out. -/
theorem follows_runAndNote (h : world.Templates strict template template)
    (hafter : ∀ phrase ∈ phrases, phrase.layoutless) :
    Follows strict world (runAndNote template target (Phrase.definitions phrases))
      (Phrase.run template (.make (.extends target) [] :: phrases)) := by
  intro site site' hsites
  have hrun : Phrase.run template (.make (.extends target) [] :: phrases) site'
      = (noteLayout template target site').bind fun noted =>
          Phrase.run template phrases (noted.2.skipping 1) := by
    rw [Phrase.run_cons, evaluate_extends, bind_assoc]
    rfl
  have hlast : ∀ {after : Site}, after.layout = site.layout → noteLayout template target after
      = (if site.layout.isSome then none else template.layout? target).map
          fun layout => ((), after.noting (some layout)) := by
    intro after hsame
    rw [noteLayout_apply, hsame]
  have hblind : Blind (Phrase.run template phrases) := blind_run hafter
  have hdefinitions : Blind (Phrase.run template (Phrase.definitions phrases)) :=
    blind_run fun phrase hphrase => hafter phrase (List.mem_of_mem_filter hphrase)
  have hle := world.le_ahead 1
  have hends := follows_definitions phrases (h.mono hle) _ _ (hsites.ahead 1)
  rw [runAndNote, bind_apply, hrun, hlast hsites.layout]
  generalize (if site.layout.isSome then none else template.layout? target) = noted at hlast
  cases noted with
  | none =>
      -- no layout can be noted, neither before nor afterwards
      cases hdefined : Phrase.run template (Phrase.definitions phrases) site with
      | none => exact .failed
      | some outcome =>
          show world.Ends strict (noteLayout template target outcome.2) none
          rw [hlast (hdefinitions.layout hdefined)]
          exact .failed
  | some layout =>
      have hphrases : Phrase.run template phrases ((site'.noting (some layout)).skipping 1)
          = (Phrase.run template phrases (site'.skipping 1)).map
              fun outcome => (outcome.1, outcome.2.noting (some layout)) :=
        hblind (some layout) (site'.skipping 1)
      show world.Ends strict _
        (Phrase.run template phrases ((site'.noting (some layout)).skipping 1))
      rw [hphrases]
      generalize hdefined : Phrase.run template (Phrase.definitions phrases) site = first at hends
      generalize Phrase.run template phrases (site'.skipping 1) = second at hends
      cases hends with
      | failed => exact .failed
      | refused hstrict => exact .refused hstrict
      | done hlater hresult hafter =>
          show world.Ends strict (noteLayout template target _) _
          rw [hlast (hdefinitions.layout hdefined)]
          exact .done (World.le_trans hle hlater) hresult ⟨rfl, hafter.assembly⟩

/-- A template with a layout, its neutral statements left out and the layout noted at the end. -/
theorem follows_extendsOnce (h : world.Templates strict template template)
    (hextends : ExtendsOnce phrases target others) :
    Follows strict world (runAndNote template target (Phrase.definitions others))
      (Phrase.run template phrases) := by
  obtain ⟨⟨before, after, rfl, rfl⟩, hlayoutless⟩ := hextends
  rw [runAndNote, Phrase.definitions_append, Phrase.run_append, Phrase.run_append, bind_assoc]
  refine (follows_definitions before h).bind fun later hle _ _ _ => ?_
  exact follows_runAndNote (h.mono hle) fun phrase hphrase =>
    hlayoutless phrase (List.mem_append_right before hphrase)

end Place

/-! ## Composing without neutral statements -/

section Composing

variable {config : Config} {compose : Source → Assemble Composed} {source : Source}
  {target : String} {phrases others : List Phrase}

/-- The tree of a template with a layout, from the statements that are not neutral. -/
def extending (config : Config) (compose : Source → Assemble Composed) (source : Source)
    (definitions : List Phrase) (target : String) : Evaluate (Block BlockId Draft) := fun site => do
  let template := source.template config compose site.assembly.templates
  let (_, after) ← runAndNote template target definitions site.entering
  let layout ← after.layout
  plainly Block.lineless (composeLayout compose source layout)
    { site with assembly := after.assembly }

/-- The tree that is composed of a source. -/
def rootOf (config : Config) (compose : Source → Assemble Composed) (source : Source) :
    Evaluate (Block BlockId Draft) := do
  return (← composed config compose source).root

section Phrases

variable (hphrases : phrasesOf config source.text = some phrases) {site after : Site}
  {layout : Layout}
include hphrases

theorem statementsOf_eq : statementsOf config compose source site
    = (Phrase.evaluateAll (source.template config compose site.assembly.templates) phrases
        site.entering).map fun outcome =>
          ((outcome.1, outcome.2.layout), { site with assembly := outcome.2.assembly }) := by
  unfold statementsOf
  rw [hphrases]
  show Option.bind (Phrase.evaluateAll _ phrases site.entering) _ = _
  cases Phrase.evaluateAll (source.template config compose site.assembly.templates) phrases
    site.entering <;> rfl

/-- Where the phrases of a source note a layout, the tree is the layout's. -/
theorem rootOf_of_run (hrun : Phrase.run (source.template config compose site.assembly.templates)
      phrases site.entering = some ((), after)) (hlayout : after.layout = some layout) :
    rootOf config compose source site
      = plainly Block.lineless (composeLayout compose source layout)
          { site with assembly := after.assembly } := by
  rw [Phrase.run_apply] at hrun
  obtain ⟨⟨nodes, last⟩, hevaluated, hlast⟩ := Option.map_eq_some_iff.mp hrun
  have hlast : last = after := congrArg Prod.snd hlast
  subst last
  have hstatements : statementsOf config compose source site
      = some ((nodes, some layout), { site with assembly := after.assembly }) := by
    rw [statementsOf_eq hphrases, hevaluated, ← hlayout]
    rfl
  rw [rootOf, bind_apply, composed, bind_apply, hstatements]
  show Option.bind (Option.bind (plainly Block.lineless (composeLayout compose source layout)
    { site with assembly := after.assembly }) _) _ = _
  cases plainly Block.lineless (composeLayout compose source layout)
    { site with assembly := after.assembly } <;> rfl

theorem rootOf_of_run_eq_none
    (hrun : Phrase.run (source.template config compose site.assembly.templates) phrases
      site.entering = none) : rootOf config compose source site = none := by
  rw [Phrase.run_apply, Option.map_eq_none_iff] at hrun
  rw [rootOf, bind_apply, composed, bind_apply, statementsOf_eq hphrases, hrun]
  rfl

end Phrases

/-- **An extending template** is composed, under other names, of the statements that are not neutral
    and the layout, wherever that is named. -/
theorem follows_extending {strict : Prop} {world : World}
    (hcompose : Composes strict world compose compose) (hshift : world.names.shift = 0)
    (hphrases : phrasesOf config source.text = some phrases)
    (hextends : ExtendsOnce phrases target others) :
    Follows strict world (extending config compose source (Phrase.definitions others) target)
      (rootOf config compose source) := by
  intro site site' hsites
  let template := source.template config compose site.assembly.templates
  have htemplate : source.template config compose site'.assembly.templates = template := by
    rw [hsites.assembly.templates, hshift, Nat.add_zero]
  have htemplates : world.Templates strict template template :=
    ⟨rfl, rfl, by rw [hshift, Nat.add_zero], fun _ => id, fun _ => rfl, hcompose⟩
  have hends := follows_extendsOnce htemplates hextends _ _ hsites.entering
  have hextending : extending config compose source (Phrase.definitions others) target site
      = (runAndNote template target (Phrase.definitions others) site.entering).bind fun noted =>
          noted.2.layout.bind fun layout =>
            plainly Block.lineless (composeLayout compose source layout)
              { site with assembly := noted.2.assembly } := rfl
  rw [hextending]
  generalize hdefined : runAndNote template target (Phrase.definitions others) site.entering
    = first at hends
  generalize hrun : Phrase.run template phrases site'.entering = second at hends
  rw [← htemplate] at hrun
  cases hends with
  | failed =>
      rw [rootOf_of_run_eq_none hphrases hrun]
      exact .failed
  | refused hstrict =>
      rw [rootOf_of_run_eq_none hphrases hrun]
      exact .refused hstrict
  | @done later _ _ after after' hle hresult hafter =>
      obtain ⟨layout, hlayout⟩ := layout_of_runAndNote hdefined
      rw [rootOf_of_run hphrases hrun (hafter.layout.trans hlayout)]
      show world.Ends strict (Option.bind after.layout _) _
      rw [hlayout]
      have hlater : Composes strict later compose compose := fun last hlast =>
        hcompose last (World.le_trans hle hlast)
      have hunder : source.Under strict source := ⟨rfl, rfl, fun _ => id, fun _ => rfl⟩
      exact World.Ends.earlier (follows_composeLayout hlater hunder layout _ _
        ⟨hsites.layout, hafter.assembly⟩) hle

end Composing

/-! ## Finished trees -/

section Trees

/-- The beginning of a composition. -/
def Site.first : Site := { assembly := {} }

/-- Nothing was given away yet; the templates of the second state have later numbers. -/
def World.first (shift : Nat) : World where
  names := ⟨id, shift, Function.injective_id⟩
  next := 0
  fits := fun _ => rfl

theorem World.sites_first (shift : Nat) :
    (World.first shift).Sites Site.first { assembly := { templates := shift } } :=
  ⟨rfl, rfl, rfl, relates_of_fixed fun _ => rfl, relates_of_fixed fun _ => rfl,
    relates_of_fixed fun _ => rfl, (Nat.zero_add shift).symm⟩

/-- The finished tree does not tell under which names its nodes were made. -/
theorem World.Sites.finish {world : World} {site site' : Site} (h : world.Sites site site')
    {root root' : Block BlockId Draft} (hroot : world.Relates root root') :
    Document.finish site'.assembly (.ofBlock root')
      = Document.finish site.assembly (.ofBlock root) := by
  have hstore : site.assembly.store.Renamed world.names site'.assembly.store :=
    h.assembly.current.renamed
  have hresolved : site'.assembly.store.resolve (rename world.names (Node.ofBlock root))
      = rename world.names (site.assembly.store.resolve (.ofBlock root)) :=
    List.singleton_inj.mp (hstore.resolve [Node.ofBlock root])
  rw [Document.finish, (relates_ofBlock hroot).renamed, hresolved]
  exact Node.finished_relabel world.names.ids _

variable {config : Config} {text : String} {filename : Option String} {shape : Tree} {fuel : Nat}

/-- The tree of a text up to line numbers, by what is composed without them. -/
theorem parseText_lineless :
    (∃ tree, parseText config text filename = .ok tree ∧ tree.lineless = shape)
      ↔ ∃ composed site, plainly Composed.lineless (compose config text filename) Site.first
          = some (composed, site)
        ∧ Document.finish site.assembly (.ofBlock composed.root) = shape := by
  have hfinish : ∀ (composed : Composed) (after : Assembly),
      Document.finish after.plain (.ofBlock composed.lineless.root)
        = (Document.finish after (.ofBlock composed.root)).lineless := by
    intro composed after
    rw [lineless_finish, Node.lineless_ofBlock]
    rfl
  constructor
  · rintro ⟨tree, hparse, rfl⟩
    obtain ⟨composed, after, hrun, rfl⟩ := parseText_eq_ok.mp hparse
    have hstart : compose config text filename Site.first.assembly = .ok composed after := hrun
    exact ⟨composed.lineless, _, plainly_of_ok hstart, hfinish composed after⟩
  · rintro ⟨composed, site, hplain, rfl⟩
    cases hrun : compose config text filename Site.first.assembly with
    | ok composed after =>
        cases (plainly_of_ok hrun).symm.trans hplain
        exact ⟨_, parseText_eq_ok.mpr ⟨composed, after, hrun, rfl⟩, (hfinish composed after).symm⟩
    | error fault after => cases (plainly_of_error hrun).symm.trans hplain

theorem parseFile_of_load {path : String} (h : config.activeLoader.load path = .ok text) :
    parseFile config path = parseText config text (some path) := by
  rw [parseFile, composeFile, h, parseText]

theorem compose_first (hfuel : config.chainBound = fuel + 1) :
    plainly Composed.lineless (compose config text filename) Site.first
      = composed config (composeWith config fuel) { text, filename } Site.first := by
  rw [compose, hfuel]
  exact matches_composeStep (mirroring_composeWith config fuel) { text, filename } none {}

/-- A text that gives a tree has phrases. -/
theorem exists_phrasesOf {tree : Tree} (hparse : parseText config text filename = .ok tree) :
    ∃ phrases, phrasesOf config text = some phrases := by
  obtain ⟨fuel, hfuel⟩ := config.chainBound_pos
  obtain ⟨_, _, hrun, -⟩ := parseText_lineless.mp ⟨tree, hparse, rfl⟩
  rw [compose_first hfuel] at hrun
  obtain ⟨_, hread, -⟩ := Option.bind_eq_some_iff.mp hrun
  obtain ⟨phrases, hphrases, -⟩ := Option.bind_eq_some_iff.mp hread
  exact ⟨phrases, hphrases⟩

theorem rootOf_eq_some {compose : Source → Assemble Composed} {source : Source}
    {site after : Site} {root : Block BlockId Draft} :
    rootOf config compose source site = some (root, after)
      ↔ ∃ found, composed config compose source site = some (found, after) ∧ found.root = root := by
  rw [rootOf, bind_apply, Option.bind_eq_some_iff]
  constructor
  · rintro ⟨⟨composed, last⟩, hrun, hroot⟩
    cases hroot
    exact ⟨composed, hrun, rfl⟩
  · rintro ⟨composed, hrun, rfl⟩
    exact ⟨_, hrun, rfl⟩

/-- The tree of an extending template, from the statements that are not neutral. -/
theorem parseText_extendsOnce {target : String} {phrases others : List Phrase}
    (hfuel : config.chainBound = fuel + 1) (hphrases : phrasesOf config text = some phrases)
    (hextends : ExtendsOnce phrases target others) :
    (∃ tree, parseText config text filename = .ok tree ∧ tree.lineless = shape)
      ↔ ∃ root site, extending config (composeWith config fuel) { text, filename }
          (Phrase.definitions others) target Site.first = some (root, site)
        ∧ Document.finish site.assembly (.ofBlock root) = shape := by
  have hcompose : Composes True (World.first 0) (composeWith config fuel)
      (composeWith config fuel) :=
    composes_composeWith config fuel fuel (Nat.le_refl _) (fun _ => rfl) _
  let source : Source := { text, filename }
  have hfollows : Follows True (World.first 0)
      (extending config (composeWith config fuel) source (Phrase.definitions others) target)
      (rootOf config (composeWith config fuel) source) :=
    follows_extending hcompose rfl hphrases hextends
  have hends := hfollows Site.first Site.first (World.sites_first 0)
  rw [parseText_lineless, compose_first hfuel]
  constructor
  · rintro ⟨composed, site', hrun, rfl⟩
    rw [rootOf_eq_some.mpr ⟨composed, hrun, rfl⟩] at hends
    generalize extending config (composeWith config fuel) _ _ target _ = first at hends ⊢
    cases hends with
    | done _ hroot hsites => exact ⟨_, _, rfl, (hsites.finish hroot).symm⟩
  · rintro ⟨root, site, hrun, rfl⟩
    rw [hrun] at hends
    generalize hcomposed : rootOf config (composeWith config fuel) source Site.first = second
      at hends
    cases hends with
    | refused hstrict => exact absurd trivial hstrict
    | done _ hroot hsites =>
        obtain ⟨composed, hread, rfl⟩ := rootOf_eq_some.mp hcomposed
        exact ⟨composed, _, hread, hsites.finish hroot⟩

/-- What a template gives in which nothing is done but to name a layout. -/
theorem extending_nil {compose : Source → Assemble Composed} {source : Source} {target : String}
    {root : Block BlockId Draft} {site : Site}
    (h : extending config compose source [] target Site.first = some (root, site)) :
    ∃ layout composed after, (source.template config compose 0).layout? target = some layout
      ∧ plainly Composed.lineless (compose (layout.source source))
          { assembly := { templates := 1 } } = some (composed, after)
      ∧ root = composed.root.lineless ∧ site.assembly.store = after.assembly.store.lineless := by
  obtain ⟨⟨_, noted⟩, hnoted, hrest⟩ := Option.bind_eq_some_iff.mp h
  rw [runAndNote, Phrase.run_nil, pure_bind, noteLayout_apply] at hnoted
  obtain ⟨layout, hlayout, hsite⟩ := Option.map_eq_some_iff.mp hnoted
  cases hsite
  refine ⟨layout, ?_⟩
  have hcomposed : plainly Block.lineless (composeLayout compose source layout)
      { assembly := { templates := 1 } } = some (root, site) := hrest
  rw [plainly_composeLayout] at hcomposed
  obtain ⟨⟨composed, after⟩, hread, hhoisted⟩ := Option.bind_eq_some_iff.mp hcomposed
  refine ⟨composed, after, hlayout, hread, ?_⟩
  have hplaced : hoistMixins layout composed.root { after.assembly with mixins := .empty }
      = .ok composed.root { after.assembly with mixins := .empty } :=
    Placement.hoistMixins_of_placed layout rfl
  have hsame : plainly Block.lineless (hoistMixins layout composed.root)
      { after with assembly := { after.assembly with mixins := .empty } } = some (root, site) :=
    hhoisted
  cases (plainly_of_ok hplaced).symm.trans hsame
  exact ⟨rfl, rfl⟩

/-- A template in which nothing is done but to name a layout gives the layout's tree. -/
theorem parseText_of_extending_nil {target : String} (hfuel : config.chainBound = fuel + 1)
    {root : Block BlockId Draft} {site : Site}
    (h : extending config (composeWith config fuel) { text, filename } [] target Site.first
      = some (root, site)) :
    ∃ layout, (Source.template { text, filename } config (composeWith config fuel) 0).layout? target
        = some layout
      ∧ ∃ tree, parseText config layout.text (some layout.path) = .ok tree
        ∧ tree.lineless = Document.finish site.assembly (.ofBlock root) := by
  obtain ⟨layout, composed, after, hlayout, hread, rfl, hstore⟩ := extending_nil h
  refine ⟨layout, hlayout, ?_⟩
  -- as a layout the text has one load less left, and is reached from the template
  have hunder : Source.Under False { text := layout.text, filename := some layout.path }
      (layout.source { text, filename }) :=
    ⟨rfl, rfl, fun _ hpath => absurd hpath Bool.false_ne_true, False.elim⟩
  have hends := composes_composeWith config fuel (fuel + 1) (Nat.le_succ fuel) False.elim
    (World.first 1) _ (World.first 1).le_refl _ _ hunder Site.first _ (World.sites_first 1)
  rw [hread] at hends
  have hdirect : ∃ composed' after', plainly Composed.lineless
        (compose config layout.text (some layout.path)) Site.first = some (composed', after')
      ∧ Document.finish after'.assembly (.ofBlock composed'.root)
        = Document.finish after.assembly (.ofBlock composed.root) := by
    rw [compose, hfuel]
    generalize plainly Composed.lineless _ Site.first = first at hends ⊢
    cases hends with
    | done _ hcomposed hsites =>
        have hroot := hcomposed.map Composed.root fun _ _ => rfl
        exact ⟨_, _, rfl, (hsites.finish hroot).symm⟩
  obtain ⟨tree, hparse, hshape⟩ := parseText_lineless.mpr hdirect
  refine ⟨tree, hparse, ?_⟩
  rw [← tree.lineless_lineless, hshape, lineless_finish, Node.lineless_ofBlock, Document.finish,
    hstore]

end Trees

/-- **Only definitions matter in an extending template.**  Its layout may be named at another place
    between its statements, and neutral statements may be added or removed: composing goes on to
    succeed, and the tree is the same apart from line numbers.  If all its other statements are
    neutral, the tree is that of the layout. -/
theorem parseText_extending {config : Config} {text text' : String} {filename : Option String}
    {target : String} {phrases phrases' others others' : List Phrase}
    (hphrases : phrasesOf config text = some phrases)
    (hphrases' : phrasesOf config text' = some phrases')
    (hextends : ExtendsOnce phrases target others)
    (hextends' : ExtendsOnce phrases' target others')
    (hdefinitions : Phrase.definitions others' = Phrase.definitions others) {tree : Tree}
    (hparse : parseText config text filename = .ok tree) :
    (∃ tree', parseText config text' filename = .ok tree' ∧ tree'.lineless = tree.lineless)
      ∧ ((∀ phrase ∈ others, phrase.neutral) → ∃ name tree', filename = some name
        ∧ parseFile config (Parse.resolvePath config.extension name target) = .ok tree'
        ∧ tree'.lineless = tree.lineless) := by
  obtain ⟨fuel, hfuel⟩ := config.chainBound_pos
  have hcomposed := (parseText_extendsOnce hfuel hphrases hextends).mp ⟨tree, hparse, rfl⟩
  refine ⟨?_, fun hneutral => ?_⟩
  · rw [← hdefinitions] at hcomposed
    exact (parseText_extendsOnce hfuel hphrases' hextends').mpr hcomposed
  · obtain ⟨root, site, hrun, hshape⟩ := hcomposed
    rw [Phrase.definitions_eq_nil hneutral] at hrun
    obtain ⟨layout, hlayout, tree', hparse', hsame⟩ := parseText_of_extending_nil hfuel hrun
    obtain ⟨name, hname, hpath, hload⟩ := Template.layout?_eq_some hlayout
    have hload : config.activeLoader.load layout.path = .ok layout.text := hload
    rw [← parseFile_of_load hload, hpath] at hparse'
    exact ⟨name, tree', hname, hparse', hsame.trans hshape⟩

/-- A page that names its layout before a block and a mixin. -/
def definingText : String := "extends lay\nblock b\n  p\nmixin m\n  q"

/-- A page with a heading, and with its layout named behind the block and the mixin. -/
def movedText : String := "h1 a\nblock b\n  p\nmixin m\n  q\nextends lay"

/-- A page with a heading and a layout. -/
def headingText : String := "h1 a\nextends lay"

/-- A layout with a named block. -/
def blockLayout : String := "div\n  block b\n    i"

/-- The layout is the only other template. -/
def layoutConfig : Config := ({} : Config).withTemplates (.ofList [("views/lay.jade", blockLayout)])

/-- A tag with statements in it. -/
def tagPhrase (name : String) (parts : List Phrase) : Phrase :=
  .make (.element { name } (.tag false)) parts

/-- The heading. -/
def headingPhrase : Phrase := tagPhrase "h1" [.make (.node (.text "a")) []]

/-- The block and the mixin. -/
def definingPhrases : List Phrase :=
  [.make (.named "b" .replace) [.make (.body {}) [tagPhrase "p" []]],
    .make (.mixin "m" none) [.make (.body {}) [tagPhrase "q" []]]]

theorem parseText_extending_lay :
    (∃ tree tree', parseText layoutConfig definingText "views/page.jade" = .ok tree
        ∧ parseText layoutConfig movedText "views/page.jade" = .ok tree'
        ∧ tree'.lineless = tree.lineless)
      ∧ ∃ tree tree', parseText layoutConfig headingText "views/page.jade" = .ok tree
        ∧ parseFile layoutConfig "views/lay.jade" = .ok tree'
        ∧ tree'.lineless = tree.lineless := by
  have hdefining : ExtendsOnce (.make (.extends "lay") [] :: definingPhrases) "lay"
      definingPhrases := ⟨⟨[], definingPhrases, rfl, rfl⟩, by decide⟩
  have hmoved : ExtendsOnce (headingPhrase :: definingPhrases ++ [.make (.extends "lay") []]) "lay"
      (headingPhrase :: definingPhrases) :=
    ⟨⟨headingPhrase :: definingPhrases, [], rfl, rfl⟩, by decide⟩
  have hheading : ExtendsOnce [headingPhrase, .make (.extends "lay") []] "lay" [headingPhrase] :=
    ⟨⟨[headingPhrase], [], rfl, rfl⟩, by decide⟩
  constructor
  · have hok : (parseText layoutConfig definingText "views/page.jade").isOk = true := by
      decide +kernel
    cases hparse : parseText layoutConfig definingText "views/page.jade" with
    | error fault =>
        rw [hparse] at hok
        cases hok
    | ok tree =>
        have hphrases : phrasesOf layoutConfig definingText
            = some (.make (.extends "lay") [] :: definingPhrases) := by decide +kernel
        have hphrases' : phrasesOf layoutConfig movedText
            = some (headingPhrase :: definingPhrases ++ [.make (.extends "lay") []]) := by
          decide +kernel
        obtain ⟨⟨tree', hparse', hsame⟩, -⟩ :=
          parseText_extending hphrases hphrases' hdefining hmoved (by decide) hparse
        exact ⟨tree, tree', rfl, hparse', hsame⟩
  · have hok : (parseText layoutConfig headingText "views/page.jade").isOk = true := by
      decide +kernel
    cases hparse : parseText layoutConfig headingText "views/page.jade" with
    | error fault =>
        rw [hparse] at hok
        cases hok
    | ok tree =>
        have hphrases : phrasesOf layoutConfig headingText
            = some [headingPhrase, .make (.extends "lay") []] := by decide +kernel
        obtain ⟨-, hlayout⟩ := parseText_extending hphrases hphrases hheading hheading rfl hparse
        obtain ⟨name, tree', ⟨⟩, hparse', hsame⟩ := hlayout (by decide)
        have hpath : Parse.resolvePath layoutConfig.extension "views/page.jade" "lay"
            = "views/lay.jade" := by decide +kernel
        rw [hpath] at hparse'
        exact ⟨tree, tree', rfl, hparse', hsame⟩

end Stencil
