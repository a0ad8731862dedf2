import Stencil.Proofs.Composition.Isolation
import Stencil.Proofs.Node.Tour
import Stencil.Proofs.Placement.Chain

/-! # Filling markers — where the content below an include goes

    An `include` takes the text at its path.  A path that is no template's gives a
    literal.  Otherwise the text is composed to a tree, and the content below the
    statement is put at the end of one block of that tree, as the tree stands when
    the included template has been read with all that it includes itself; no other
    block changes (`content_takes_firstMarker`).  The block is the first marker
    that the search comes to, if it comes to one.

    Nothing tells a marker that an include has filled from one that is still
    open.  So the content goes to the first open marker, and to none that was
    filled, exactly when the search comes to that marker first.  A filled marker
    in front of an open one takes the content of every include around it
    (`filled_marker_takes_more`). -/

namespace Stencil

open Node Registry Store Parse

/-- A node has been put at the end of a block, and no other block has changed. -/
structure Store.Gains (before : Store Draft) (target : Block BlockId Draft) (node : Draft)
    (after : Store Draft) : Prop where
  gained : after.current.get? target.id = some
    { before.read target with nodes := (before.read target).nodes ++ [node] }
  others : ∀ id ≠ target.id, after.current.get? id = before.current.get? id

/-- Nothing stands in a marker.  So it is written, and nothing but content below an include comes
    into it. -/
def Block.isVacant {ι : Type} (mark : Block ι (Node ι)) : Bool := mark.nodes.isEmpty

/-- A block of a tree is the first marker that the search comes to, if it comes to one: whether it
    enters every block once, or, in a coherent tree, wherever a block stands.  Whatever markers are
    taken to be open, the block is the first open one and none that is not open exactly when the
    search comes to that one first. -/
structure Block.TakesFirst (tree target : Block BlockId Draft) : Prop where
  reached : ∀ mark ∈ tree.reached?, target = mark
  coherent : tree.Coherent → tree.HasPlainBodies →
    ∀ mark ∈ (stopsAll tree.nodes).head?, target = mark
  fillsOpen : ∀ isOpen, tree.FillsOpen target isOpen ↔ tree.ReachesOpen isOpen

/-- What becomes of the content below an include, once the included tree is at `root`: there is
    none; or it is read like any other, and put into a block of the tree. -/
inductive Parse.Fills (template : Template) (statement : Parse Draft) (root : Block BlockId Draft)
    (included : Progress) : Progress → Prop where
  | bare {after : Progress} : isAt template .indent included = .ok false after →
      Fills template statement root included after
  | filled {opened later : Progress} {content target : Block BlockId Draft}
      {store : Store Draft} :
      isAt template .indent included = .ok true opened →
      indentedBlock template statement opened = .ok content later →
      (included.assembly.store.resolveBlock root).TakesFirst target →
      later.assembly.store.Gains target (.ofBlock content) store →
      Fills template statement root included
        { later with assembly := { later.assembly with store } }

/-- What an `include` makes of the text at a path: a literal, if the path is no template's and there
    is no content below the statement; or the tree that the text is composed to, which is named
    after the path and takes the content below the statement. -/
inductive Parse.Includes (template : Template) (statement : Parse Draft) (filename path : String)
    (line : Int) (before : Progress) : Draft → Progress → Prop where
  | literal {text : String} {told looked after : Progress} {node : Draft} :
      isTemplatePath template.config.extension path = false →
      tell compositionChannel (filename ++ " includes " ++ path ++ " as literal text") before
        = .ok () told →
      template.config.activeLoader.load path = .ok text →
      isAt template .indent told = .ok false looked →
      (newNode line (.literal text) : Parse Draft) looked = .ok node after →
      Includes template statement filename path line before node after
  | composed {text : String} {told after : Progress} {composed : Composed} {read named : Assembly}
      {root : Block BlockId Draft} :
      isTemplatePath template.config.extension path = true →
      path ∉ template.lineage →
      tell compositionChannel (filename ++ " includes " ++ path) before = .ok () told →
      template.config.activeLoader.load path = .ok text →
      composeInclude template { text, filename := some path, lineage := template.lineage }
        told.assembly = .ok composed read →
      nameRoot path composed.root read = .ok root named →
      Fills template statement root { told with assembly := named } after →
      Includes template statement filename path line before (.ofBlock root) after

theorem takesFirst_includePoint {tree : Block BlockId Draft} (hroot : tree.props.isYield = false) :
    tree.TakesFirst (includePoint tree) := by
  have hfirst := includePoint_toured tree
  exact ⟨hfirst, fun hcoherent hplain => head?_tourAll hcoherent hplain ▸ hfirst,
    fun _ => includePoint_fillsOpen_iff hroot⟩

theorem gains_pushInto {assembly after : Assembly} {target : Block BlockId Draft} {node : Draft}
    (hkeyed : assembly.store.Keyed) (hrun : pushInto target node assembly = .ok () after) :
    assembly.store.Gains target node after.store := by
  refine ⟨?_, (pushInto_other hkeyed hrun).2⟩
  cases hrun
  show (assembly.store.write _).current.get? target.id = _
  rw [current_write, if_pos (hkeyed.read_id target).symm]

/-! ## Includes -/

section

variable {config : Config} {fuel : Nat}

/-- The root of a composed tree is no marker. -/
theorem isYield_composeWith (config : Config) (fuel : Nat) :
    ∀ {source : Source} {before after : Assembly} {composed : Composed}, before.Given →
      composeWith config fuel source before = .ok composed after →
        (after.store.read composed.root).props.isYield = false := by
  induction fuel with
  | zero => exact fun _ hrun => nomatch hrun
  | succ fuel ih =>
      intro source before after composed hgiven hrun
      obtain ⟨nodes, layout?, read, hread, hrest⟩ := Placement.composeStep_eq_ok hrun
      obtain ⟨hkeeps, -⟩ := confined_readStatements (confined_composeWith config fuel) []
        _ _ _ hread hgiven nofun
      cases layout? with
      | none =>
          obtain ⟨root, layout⟩ := composed
          cases hrest
          -- nothing has been recorded for a new block
          have hnew : read.store.current.get? read.store.next = none :=
            Option.eq_none_iff_forall_ne_some.mpr fun block hblock =>
              Nat.lt_irrefl _ (hkeeps.within.store.given _ block hblock)
          rw [read_of_unrecorded hnew]
      | some layout =>
          obtain ⟨inner, middle, hlayout, hhoist⟩ := Placement.composeLayout_eq_ok hrest
          have hempty : (Placement.forLayout read).Given :=
            ⟨hkeeps.within.store, hkeeps.within.registry, nofun⟩
          have hinner := ih hempty hlayout
          obtain ⟨store, log, rfl, hcases⟩ := Placement.hoistMixins_eq_ok hhoist
          rcases hcases with ⟨-, hplaced, rfl⟩ | ⟨rfl, hplaced⟩
          · rwa [hplaced]
          · show (Store.read (Store.write _ _) _).props.isYield = false
            rw [read_of_current (by rw [current_write, if_pos rfl]), hplaced]
            exact hinner

variable {template : Template} {statement : Parse Draft} {progress after : Progress}
  {node : Draft} {filename path : String} {line : Int}

/-- Naming an included tree gives away no identity, and its root is no marker. -/
theorem given_named (hcompose : template.compose = composeWith config fuel) {source : Source}
    {before read named : Assembly} {composed : Composed} {root : Block BlockId Draft}
    (hgiven : before.Given) (hread : composeInclude template source before = .ok composed read)
    (hname : nameRoot path composed.root read = .ok root named) :
    named.Given ∧ (named.store.resolveBlock root).props.isYield = false := by
  obtain ⟨hkeeps, hheld⟩ := confined_composeInclude
    (hcompose ▸ confined_composeWith config fuel) _ [] _ _ _ hread hgiven nofun
  refine ⟨(confined_nameRoot path (List.Subset.refl _) _ _ _ hname hkeeps.within
    hheld).1.within, ?_⟩
  obtain ⟨final, hfinal, rfl⟩ := composeInclude_eq_ok hread
  rw [hcompose] at hfinal
  have hcopied : before.copied.Given :=
    (keeps_copied hgiven.store (fun id hid => (hgiven.registry id hid).2) hgiven.mixins).within
  have hyield := isYield_composeWith config fuel hcopied hfinal
  cases hname
  show (Store.read (Store.write _ _) _).props.isYield = false
  rw [read_of_current (by rw [current_write, if_pos rfl])]
  exact hyield

/-- The content below an include fills the included tree. -/
theorem fills_of_attaches {root : Block BlockId Draft} {included : Progress}
    (hstatement : ConfinesNode (fun _ => True) statement) (hgiven : included.assembly.Given)
    (hyield : (included.assembly.store.resolveBlock root).props.isYield = false)
    (hattaches : Attaches template statement root included after) :
    Fills template statement root included after := by
  cases hattaches with
  | bare hlook => exact .bare hlook
  | @content looked later content pushed hlook hblock hpushed =>
      have hlooked : included.assembly.Same looked.assembly := quiet_isAt _ _ _ _ hlook
      have hlater := (confined_indentedBlock hstatement [] _ _ _ hblock
        (hlooked.within hgiven) nofun).1.within
      have hgains := gains_pushInto hlater.store.keyed hpushed
      cases hpushed
      refine .filled hlook hblock ?_ hgains
      rw [hlooked.store]
      exact takesFirst_includePoint hyield

/-- The path of a template makes the tree that the text there is composed to. -/
theorem includeTemplate_includes (hcompose : template.compose = composeWith config fuel)
    (hstatement : ConfinesNode (fun _ => True) statement)
    (hpath : isTemplatePath template.config.extension path = true)
    (hgiven : progress.assembly.Given)
    (hrun : includeTemplate template statement filename path line progress = .ok node after) :
    Includes template statement filename path line progress node after := by
  obtain ⟨text, told, composed, read, root, named, hnew, htell, htext, hread, hname, rfl,
    hattaches⟩ := includeTemplate_eq_ok hrun
  obtain ⟨hnamed, hyield⟩ :=
    given_named hcompose ((quiet_tell _ _ _ _ _ htell).within hgiven) hread hname
  exact .composed hpath hnew htell htext hread hname
    (fills_of_attaches hstatement hnamed hyield hattaches)

/-- **Filling.**  An `include` takes the text at the path that its target resolves to.  If this is a
    template's, the content below the statement goes to the end of the first marker that the search
    comes to in the included tree, and into no other block.  That is the first open marker, and none
    that an include inside the tree has filled, exactly when the search comes to it before any
    other. -/
theorem content_takes_firstMarker {depth : Nat}
    (hcompose : template.compose = composeWith config fuel) (hgiven : progress.assembly.Given)
    (hrun : includeStatement template (statementWith template depth) progress = .ok node after) :
    ∃ token taken filename, expect template .include progress = .ok token taken
      ∧ template.filename = some filename
      ∧ Includes template (statementWith template depth) filename
        (resolvePath template.config.extension filename token.value) token.line taken node
        after := by
  obtain ⟨token, taken, filename, hexpect, hfilename, hincludes⟩ := includeStatement_eq_ok hrun
  have hsame : progress.assembly.Same taken.assembly := quiet_expect _ _ _ _ hexpect
  refine ⟨token, taken, filename, hexpect, hfilename, ?_⟩
  rcases hincludes with ⟨hpath, htemplate⟩ | ⟨hpath, hliteral⟩
  · have hstatement := confined_statementWith (K := fun _ => True)
      (hcompose ▸ confined_composeWith config fuel) depth
    exact includeTemplate_includes hcompose hstatement hpath (hsame.within hgiven) htemplate
  · obtain ⟨text, told, looked, htell, htext, hlook, hnew⟩ := includeLiteral_eq_ok hliteral
    exact .literal hpath htell htext hlook hnew

end

/-! ### A filled marker before an open one -/

/-- A template with a `yield` marker of its own, behind an include that it fills. -/
def nestedParts : OrderedMap String String :=
  .ofList [("views/a.jade", "include b\n  p y\ndiv\n  yield"), ("views/b.jade", "yield")]

/-- A page that includes it with content. -/
def nestedPage : Progress := pageAt nestedParts "include a\n  p x" 0

theorem assemble_of_ok {α : Type} {action : Assemble α} {progress : Progress} {result : α}
    {assembly : Assembly} (h : action progress.assembly = .ok result assembly) :
    assemble action progress = .ok result { progress with assembly } := by
  rw [assemble, h]

/-- Reads the `include` of a page up to the content below it, and gives the root of the included
    tree. -/
def readRoot (parts : OrderedMap String String) : Parse (Block BlockId Draft) := do
  let template := pageTemplate parts
  let token ← expect template .include
  let path := resolvePath template.config.extension "views/page.jade" token.value
  tell compositionChannel ("views/page.jade" ++ " includes " ++ path)
  let text ← load template path token.line
  let composed ← assemble
    (composeInclude template { text, filename := some path, lineage := template.lineage })
  assemble (nameRoot path composed.root)

/-- What the `include` of a page makes of a template fills the tree that it reads. -/
theorem fills_of_includes {parts : OrderedMap String String} {statement : Parse Draft}
    {page taken after : Progress} {token : Token} {node : Draft}
    (hexpect : expect (pageTemplate parts) .include page = .ok token taken)
    (hincludes : Includes (pageTemplate parts) statement "views/page.jade"
      (resolvePath (pageTemplate parts).config.extension "views/page.jade" token.value) token.line
      taken node after)
    (hnode : node.isBlock = true) :
    ∃ root included, readRoot parts page = .ok root included
      ∧ Fills (pageTemplate parts) statement root included after := by
  cases hincludes with
  | literal _ _ _ _ hnew =>
      cases hnew
      exact nomatch hnode
  | @composed text told _ composed read named root _ _ htell hload hread hname hfills =>
      have hloaded : load (pageTemplate parts) (resolvePath (pageTemplate parts).config.extension
          "views/page.jade" token.value) token.line told = .ok text told := by
        rw [load, hload]
        rfl
      refine ⟨root, _, ?_, hfills⟩
      rw [readRoot, bind_eq_of_ok hexpect, bind_eq_of_ok htell, bind_eq_of_ok hloaded]
      show (assemble _ >>= _) told = _
      rw [bind_eq_of_ok (assemble_of_ok hread)]
      exact assemble_of_ok hname

/-- The first marker that the search comes to was filled, and there is an open one behind it. -/
theorem content_takes_firstMarker_nested :
    nestedPage.assembly.Given ∧ ∃ node after, readInclude nestedParts nestedPage = .ok node after
      ∧ ∃ root included, readRoot nestedParts nestedPage = .ok root included
        ∧ ∃ (target content : Block BlockId Draft) (later : Store Draft),
          (included.assembly.store.resolveBlock root).TakesFirst target
            ∧ ¬ (included.assembly.store.resolveBlock root).FillsOpen target Block.isVacant
            ∧ later.Gains target (.ofBlock content) after.assembly.store := by
  have hgiven : nestedPage.assembly.Given :=
    given_of_entries (by decide +kernel) (by decide +kernel) (by decide +kernel)
  have hcompose : (pageTemplate nestedParts).compose
      = composeWith (({} : Config).withTemplates nestedParts) 5 := rfl
  have hincluded : ∃ found ∈ resultAfter? (readInclude nestedParts nestedPage),
      found.1.isBlock = true := by
    decide +kernel
  obtain ⟨⟨node, after⟩, hfound, hnode⟩ := hincluded
  have hrun := resultAfter?_eq_some hfound
  obtain ⟨token, taken, filename, hexpect, hfilename, hincludes⟩ :=
    content_takes_firstMarker hcompose hgiven hrun
  cases hfilename
  obtain ⟨root, included, hroot, hfills⟩ := fills_of_includes hexpect hincludes hnode
  have htree : ∃ found ∈ resultAfter? (readRoot nestedParts nestedPage),
      (∃ mark ∈ (found.2.assembly.store.resolveBlock found.1).reached?, mark.isVacant = false)
        ∧ ∃ looked ∈ resultAfter? (isAt (pageTemplate nestedParts) .indent found.2),
          looked.1 = true := by
    decide +kernel
  obtain ⟨⟨_, _⟩, hread, ⟨mark, hmark, hclosed⟩, ⟨indented, opened⟩, hlook, hindented⟩ := htree
  cases hroot.symm.trans (resultAfter?_eq_some hread)
  replace hlook := resultAfter?_eq_some hlook
  refine ⟨hgiven, node, after, hrun, root, included, hroot, ?_⟩
  cases hfills with
  | bare hbare =>
      cases hlook.symm.trans hbare
      exact absurd hindented Bool.false_ne_true
  | @filled _ later content target store _ _ htakes hgains =>
      refine ⟨target, content, _, htakes, fun hopen => ?_, hgains⟩
      have hvacant := ((htakes.fillsOpen _).mp hopen).others mark hmark
      exact Bool.false_ne_true (hclosed.symm.trans hvacant)

/-- What stands in the markers of a tree: the labels of the nodes there, marker by marker. -/
def markersShown (tree : Draft) : List (List String) :=
  (tree.markup.filterMap mark?).map fun mark => (preorderAll mark.nodes).filterMap label?

/-- What stands in the markers of the tree that the `include` of a page makes. -/
def markersIncluded (parts : OrderedMap String String) (page : Progress) :
    Option (List (List String)) :=
  match readInclude parts page with
  | .ok node after => some (markersShown (after.assembly.store.resolve node))
  | .error _ _ => none

/-- With an open marker in the tree, the content goes to the one that was filled. -/
theorem filled_marker_takes_more :
    markersIncluded nestedParts (pageAt nestedParts "include a" 0) = some [["p", "y"], []]
      ∧ markersIncluded nestedParts nestedPage = some [["p", "y", "p", "x"], []] := by
  decide +kernel

end Stencil
