import Stencil.Proofs.Composition.Ancestry
import Stencil.Proofs.Composition.Confined
import Stencil.Proofs.Grammar.Inclusion

/-! # Include isolation — what an included template leaves alone

    An included template works on a snapshot of the named blocks, and on the same
    mixins.  So it can touch new blocks, and the blocks that stand in the mixin
    definitions; the named blocks of the including template stay as they are as
    long as none of them stands in a mixin definition.

    Where one does, an include can change it: a template that extends a layout
    moves all mixin definitions it knows into the layout's tree, those of the
    including template among them, and content that is included there goes to
    the first `yield` marker, which may lie in a named block inside a mixin. -/

namespace Stencil

open Registry Store Parse

/-- The blocks that stand in the mixin definitions. -/
def Assembly.mixinIds (assembly : Assembly) : List BlockId :=
  assembly.mixins.values.flatMap blockIds

/-- Whatever stands in the named blocks, in the mixin definitions and in changed blocks has an
    identity that was given away. -/
def Assembly.Given (assembly : Assembly) : Prop := assembly.Within fun _ => True

/-- No block of the table of named blocks stands in a mixin definition, at any depth. -/
def Assembly.Apart (assembly : Assembly) : Prop :=
  ∀ id, assembly.registry.Holds assembly.store id →
    ¬ assembly.store.Reaches assembly.mixinIds id

/-- The table of named blocks is the same: the names and their order, the modes, the merge data,
    and the contents of all blocks at every depth. -/
structure Assembly.SameTable (before after : Assembly) : Prop where
  registry : after.registry = before.registry
  shown : ∀ depth, before.registry.shown after.store depth
    = before.registry.shown before.store depth

/-- The blocks that an include can touch: new ones, and those in the mixin definitions. -/
def Assembly.Exposed (assembly : Assembly) (id : BlockId) : Prop :=
  assembly.store.Reaches assembly.mixinIds id ∨ assembly.store.next ≤ id

section Exposed

variable {assembly after : Assembly} {config : Config} {fuel : Nat} {template : Template}

theorem Assembly.Given.within_exposed (h : assembly.Given) :
    assembly.store.Within assembly.Exposed where
  fresh := fun _ hid => .inr hid
  keyed := h.store.keyed
  given := h.store.given
  bounded := h.store.bounded
  closed := by
    rintro id (hid | hid) inner hinner
    · exact .inl (hid.down hinner)
    · -- nothing is recorded for a block that is still to come
      rw [inside] at hinner
      split at hinner
      · next block hblock => exact absurd (h.store.given id block hblock) (Nat.not_lt.mpr hid)
      · exact nomatch hinner

theorem Assembly.Given.known_mixins (h : assembly.Given) :
    assembly.store.Known assembly.Exposed assembly.mixinIds :=
  fun id hid => ⟨.inl (.root hid), (h.mixins id hid).2⟩

/-- A block of the table that is apart from the mixins is not exposed. -/
theorem Assembly.Apart.not_exposed (hapart : assembly.Apart) (h : assembly.Given) {id : BlockId}
    (hid : assembly.registry.Holds assembly.store id) : ¬ assembly.Exposed id := by
  rintro (hreached | hnext)
  · exact hapart id hid hreached
  · exact absurd (holds_lt h.store h.registry hid) (Nat.not_lt.mpr hnext)

/-- **A composed include changes exposed blocks only**, and keeps the registry. -/
theorem composeInclude_exposed (hcompose : template.compose = composeWith config fuel)
    (h : assembly.Given) {source : Source} {composed : Composed}
    (hrun : composeInclude template source assembly = .ok composed after) :
    after.registry = assembly.registry ∧ assembly.store.Keeps assembly.Exposed after.store
      ∧ after.store.Known assembly.Exposed (blockIds (.ofBlock composed.root)) := by
  obtain ⟨final, hfinal, rfl⟩ := composeInclude_eq_ok hrun
  have hcopied := keeps_copied h.within_exposed (fun id hid => (h.registry id hid).2)
    h.known_mixins
  rw [hcompose] at hfinal
  obtain ⟨hkeeps, hroot⟩ :=
    confined_composeWith config fuel source [] _ _ _ hfinal hcopied.within nofun
  exact ⟨rfl, ⟨hcopied.changes.trans hkeeps.changes, hkeeps.within.store⟩, hroot⟩

/-- When only exposed blocks have changed, a table apart from the mixins is the same. -/
theorem Assembly.Apart.sameTable (hapart : assembly.Apart) (h : assembly.Given)
    (hregistry : after.registry = assembly.registry)
    (hchanges : assembly.store.Changes assembly.Exposed after.store) :
    assembly.SameTable after :=
  ⟨hregistry, shown_congr fun id hid => hchanges.frame id (hapart.not_exposed h hid)⟩

end Exposed

/-! ## Include statements -/

/-- What an include leaves alone.  The table is the same when the included tree has been read.
    The content below the statement, if there is any, is read from there on like any other; and
    putting it into the tree changes no block of the table. -/
inductive Parse.SparesTable (template : Template) (statement : Parse Draft) (before : Progress) :
    Progress → Prop where
  | bare {after : Progress} : before.assembly.SameTable after.assembly →
      SparesTable template statement before after
  | filled {middle later after : Progress} {content : Block BlockId Draft} :
      before.assembly.SameTable middle.assembly →
      indentedBlock template statement middle = .ok content later →
      after.assembly.registry = later.assembly.registry →
      (∀ id, before.assembly.registry.Holds before.assembly.store id →
        after.assembly.store.current.get? id = later.assembly.store.current.get? id) →
      SparesTable template statement before after

section Statements

variable {config : Config} {fuel : Nat} {template : Template} {statement : Parse Draft}

theorem Assembly.Same.within {K : BlockId → Prop} {before after : Assembly}
    (hsame : before.Same after) (h : before.Within K) : after.Within K := by
  obtain ⟨hstore, hregistry, hmixins, -⟩ := hsame
  constructor
  · rw [hstore]
    exact h.store
  · rw [hstore, hregistry]
    exact h.registry
  · rw [hstore, hmixins]
    exact h.mixins

theorem Assembly.Same.apart {before after : Assembly} (hsame : before.Same after)
    (h : before.Apart) : after.Apart := by
  unfold Assembly.Apart Assembly.mixinIds at h ⊢
  rwa [hsame.store, hsame.registry, hsame.mixins]

/-- Putting content into a block changes no other block. -/
theorem pushInto_other {assembly after : Assembly} {target : Block BlockId Draft} {node : Draft}
    (hkeyed : assembly.store.Keyed) (hrun : pushInto target node assembly = .ok () after) :
    after.registry = assembly.registry
      ∧ ∀ id ≠ target.id, after.store.current.get? id = assembly.store.current.get? id := by
  cases hrun
  refine ⟨rfl, fun id hne => ?_⟩
  show (assembly.store.write _).current.get? id = _
  rw [current_write, if_neg]
  rwa [hkeyed.read_id]

/-- Where the statement starts among quiet readers does not matter. -/
theorem Parse.SparesTable.of_same {before middle after : Progress}
    (hsame : before.assembly.Same middle.assembly)
    (h : SparesTable template statement middle after) :
    SparesTable template statement before after := by
  have htable : ∀ {assembly : Assembly}, middle.assembly.SameTable assembly →
      before.assembly.SameTable assembly := fun h =>
    ⟨h.registry.trans hsame.registry, by
      rw [← hsame.store, ← hsame.registry]
      exact h.shown⟩
  cases h with
  | bare h => exact .bare (htable h)
  | filled h hcontent hregistry hother =>
      refine .filled (htable h) hcontent hregistry fun id hid => hother id ?_
      rwa [hsame.store, hsame.registry]

theorem includeTemplate_spares (hcompose : template.compose = composeWith config fuel)
    (hstatement : ConfinesNode (fun _ => True) statement) {progress after : Progress}
    (hgiven : progress.assembly.Given) (hapart : progress.assembly.Apart) {node : Draft}
    {filename path : String} {line : Int}
    (hrun : includeTemplate template statement filename path line progress = .ok node after) :
    SparesTable template statement progress after := by
  obtain ⟨text, told, composed, read, root, named, -, htell, -, hread, hname, -, hattaches⟩ :=
    includeTemplate_eq_ok hrun
  have hsame : progress.assembly.Same told.assembly := quiet_tell _ _ _ _ _ htell
  refine .of_same hsame ?_
  have htold : told.assembly.Given := hsame.within hgiven
  have hfree : told.assembly.Apart := hsame.apart hapart
  -- what was composed and named is exposed, so the table is the same
  obtain ⟨hregistry, hkeeps, hknown⟩ := composeInclude_exposed hcompose htold hread
  obtain ⟨hregistryNamed, -, hkeepsNamed, hknownNamed⟩ := keeps_nameRoot hkeeps.within hknown hname
  have htable : ∀ looked, named.Same looked → told.assembly.SameTable looked := by
    intro looked hlooked
    have hchanges : told.assembly.store.Changes told.assembly.Exposed looked.store := by
      rw [hlooked.store]
      exact hkeeps.toChanges.trans hkeepsNamed.toChanges
    exact hfree.sameTable htold ((hlooked.registry.trans hregistryNamed).trans hregistry) hchanges
  cases hattaches with
  | bare hlook => exact .bare (htable _ (quiet_isAt _ _ _ _ hlook))
  | @content looked later content pushed hlook hblock hpushed =>
      have hlooked : named.Same looked.assembly := quiet_isAt _ _ _ _ hlook
      have hgivenLooked : looked.assembly.Given := by
        obtain ⟨hcomposedKeeps, hheld⟩ := confined_composeInclude
          (hcompose ▸ confined_composeWith config fuel) _ [] _ _ _ hread htold nofun
        have h :=
          confined_nameRoot path (List.Subset.refl _) _ _ _ hname hcomposedKeeps.within hheld
        exact hlooked.within h.1.within
      -- the content is put into an exposed block
      have hkeyed : later.assembly.store.Keyed :=
        (confined_indentedBlock hstatement [] _ _ _ hblock hgivenLooked nofun).1.within.store.keyed
      have htarget : told.assembly.Exposed
          (Node.includePoint (looked.assembly.store.resolveBlock root)).id := by
        rw [hlooked.store]
        exact (known_ofBlock.mp (known_includePoint hkeepsNamed.within hknownNamed)).1.1
      obtain ⟨hregistryPushed, hother⟩ := pushInto_other hkeyed hpushed
      refine .filled (htable _ hlooked) hblock hregistryPushed fun id hid => hother id ?_
      exact fun heq => hfree.not_exposed htold hid (heq ▸ htarget)

/-- A file that is no template changes no block. -/
theorem includeLiteral_spares {progress after : Progress} {node : Draft} {filename path : String}
    {line : Int} (hrun : includeLiteral template filename path line progress = .ok node after) :
    SparesTable template statement progress after := by
  obtain ⟨text, told, looked, htell, -, hlook, hnode⟩ := includeLiteral_eq_ok hrun
  have hsame : progress.assembly.Same looked.assembly :=
    (quiet_tell _ _ _ _ _ htell).trans (quiet_isAt _ _ _ _ hlook)
  cases hnode
  refine .bare ⟨hsame.registry, shown_congr fun id _ => ?_⟩
  show looked.assembly.store.current.get? id = _
  rw [hsame.store]

/-- **An include spares the table** of named blocks that is apart from the mixins. -/
theorem includeStatement_spares (hcompose : template.compose = composeWith config fuel)
    (hstatement : ConfinesNode (fun _ => True) statement) {progress after : Progress}
    (hgiven : progress.assembly.Given) (hapart : progress.assembly.Apart) {node : Draft}
    (hrun : includeStatement template statement progress = .ok node after) :
    SparesTable template statement progress after := by
  obtain ⟨token, taken, filename, hexpect, -, hincludes⟩ := includeStatement_eq_ok hrun
  have hsame : progress.assembly.Same taken.assembly := quiet_expect _ _ _ _ hexpect
  refine .of_same hsame ?_
  rcases hincludes with ⟨-, htemplate⟩ | ⟨-, hliteral⟩
  · exact includeTemplate_spares hcompose hstatement (hsame.within hgiven) (hsame.apart hapart)
      htemplate
  · exact includeLiteral_spares hliteral

end Statements

/-! ## Where identities have been given away -/

theorem mem_entries_of_get? {store : Store Draft} {id : BlockId} {block : Block BlockId Draft}
    (h : store.current.get? id = some block) : (id, block) ∈ store.current.entries := by
  obtain ⟨before, after, heq, -⟩ := List.lookup_eq_some_iff.mp h
  rw [heq]
  exact List.mem_append_right _ List.mem_cons_self

/-- It can be computed whether all identities were given away. -/
theorem given_of_entries {assembly : Assembly}
    (hentries : ∀ entry ∈ assembly.store.current.entries, entry.2.id = entry.1
      ∧ entry.1 < assembly.store.next
      ∧ ∀ id ∈ entry.2.nodes.flatMap blockIds, id < assembly.store.next)
    (hregistry : ∀ id ∈ assembly.registry.mentioned, id < assembly.store.next)
    (hmixins : ∀ id ∈ assembly.mixinIds, id < assembly.store.next) : assembly.Given := by
  refine ⟨⟨fun _ _ => trivial, fun id block hstate => (hentries _ (mem_entries_of_get? hstate)).1,
    fun id block hstate => (hentries _ (mem_entries_of_get? hstate)).2.1, fun id inner hinner => ?_,
    fun _ _ _ _ => trivial⟩, fun id hid => ⟨trivial, hregistry id hid⟩,
    fun id hid => ⟨trivial, hmixins id hid⟩⟩
  rw [inside] at hinner
  split at hinner
  · next block hstate => exact (hentries _ (mem_entries_of_get? hstate)).2.2 inner hinner
  · exact nomatch hinner

/-- Nothing has been given away when a composition starts. -/
theorem given_empty : ({} : Assembly).Given :=
  given_of_entries (fun _ => nofun) (fun _ => nofun) fun _ => nofun

/-- Every statement that is read, with all templates it leads to, keeps it so. -/
theorem given_statementWith {config : Config} {fuel depth : Nat} {template : Template}
    (hcompose : template.compose = composeWith config fuel) {progress after : Progress}
    (h : progress.assembly.Given) {node : Draft}
    (hrun : statementWith template depth progress = .ok node after) : after.assembly.Given :=
  have hstatement := confined_statementWith (hcompose ▸ confined_composeWith config fuel) depth
  (hstatement [] progress node after hrun h nofun).1.within

/-- So does every template that is composed. -/
theorem given_composeWith {config : Config} {fuel : Nat} {source : Source}
    {assembly after : Assembly} (h : assembly.Given) {composed : Composed}
    (hrun : composeWith config fuel source assembly = .ok composed after) : after.Given :=
  (confined_composeWith config fuel source [] assembly composed after hrun h nofun).1.within

/-! ## Isolation -/

/-- **Include isolation.**  A run of definitions on a snapshot leaves the registry as it was, as
    long as no block of the registry is handed in.  The snapshot answers as the registry itself
    would under the same run, block for block, and shows the same afterwards at every depth.  So an
    include spares the table of named blocks, whatever the included template contains, as long as
    no block of the table stands in a mixin definition. -/
theorem includes_isolated {assembly : Assembly} (hgiven : assembly.Given) :
    let store := assembly.store
    let registry := assembly.registry
    let copy := registry.snapshot store
    (∀ requests : List Request, (∀ request ∈ requests, ¬ registry.Holds store request.block.id) →
        ∀ depth, registry.shown (serveAll copy.1 copy.2 requests).store depth
          = registry.shown store depth)
      ∧ (∀ requests : List Request,
        (∀ request ∈ requests, ∀ id ∈ blockIds (.ofBlock request.block),
          registry.StandsFor store id) →
        let own := serveAll store registry requests
        let other := serveAll copy.1 copy.2 (requests.map (.shifted store.next))
        other.answers = own.answers.map (shiftedBlock store.next)
          ∧ other.registry = own.registry.renamed (store.next + ·)
          ∧ ∀ depth, other.registry.shown other.store depth
            = (own.registry.shown own.store depth).renamed (store.next + ·))
      ∧ (assembly.Apart → ∀ config fuel depth template progress node after,
        template.compose = composeWith config fuel → progress.assembly = assembly →
        includeStatement template (statementWith template depth) progress = .ok node after →
          SparesTable template (statementWith template depth) progress after) := by
  refine ⟨fun requests hrequests depth => ?_, fun requests hrequests => ?_, ?_⟩
  · exact shown_serveAll_snapshot hgiven.store hgiven.registry requests hrequests depth
  · have hserved := serveAll_snapshot hgiven.store hgiven.registry requests hrequests
    exact ⟨(hserved 0).1, (hserved 0).2.1, fun depth => (hserved depth).2.2⟩
  · rintro hapart config fuel depth template progress node after hcompose rfl hrun
    have hstatement := confined_statementWith (K := fun _ => True)
      (hcompose ▸ confined_composeWith config fuel) depth
    exact includeStatement_spares hcompose hstatement hgiven hapart hrun

/-! ### A page with named blocks, outside of a mixin definition and inside of one -/

/-- A page that may include the templates of a table. -/
def pageTemplate (parts : OrderedMap String String) : Template where
  config := ({} : Config).withTemplates parts
  filename := "views/page.jade"
  owner := 0
  lineage := ["views/page.jade"]
  compose := composeWith (({} : Config).withTemplates parts) 5

/-- Reads some statements, with the line breaks after them. -/
def Parse.readSome (template : Template) : Nat → Parse Unit
  | 0 => return
  | count + 1 => do
      discard (statementWith template 5)
      skipNewlines template
      readSome template count

/-- The state in which a page is read on after some statements. -/
def pageAt (parts : OrderedMap String String) (text : String) (count : Nat) : Progress :=
  match readSome (pageTemplate parts) count
    { lexer := .ofSource text, assembly := { templates := 1 } } with
  | .ok _ progress => progress
  | .error _ progress => progress

/-- Reads the `include` of a page. -/
def readInclude (parts : OrderedMap String String) : Parse Draft :=
  includeStatement (pageTemplate parts) (statementWith (pageTemplate parts) 5)

/-- It can be computed whether a table is apart from the mixin definitions, given its blocks. -/
theorem apart_of_closed {assembly : Assembly} (table : List BlockId)
    (htable : ∀ id ∈ assembly.registry.mentioned, id ∈ table)
    (hclosed : ∀ id ∈ table, ∀ inner ∈ inside assembly.store id, inner ∈ table)
    (hmixins : ∀ id ∈ assembly.mixinIds, id ∉ table)
    (houtside : ∀ entry ∈ assembly.store.current.entries, entry.1 ∉ table →
      ∀ inner ∈ inside assembly.store entry.1, inner ∉ table) : assembly.Apart := by
  intro id hid hreached
  refine hreached.of_closed (K := (· ∉ table)) hmixins (fun outer houter inner hinner => ?_)
    (hid.of_closed (K := (· ∈ table)) htable hclosed)
  cases hstate : assembly.store.current.get? outer with
  | none =>
      rw [inside, hstate] at hinner
      cases hinner
  | some block => exact houtside _ (mem_entries_of_get? hstate) houter inner hinner

/-- A part that defines a block of the page anew. -/
def localParts : OrderedMap String String :=
  .ofList [("views/part.jade", "block b\n  p part")]

/-- The page has defined a mixin and two named blocks, one in the other. -/
def apartPage : Progress := pageAt localParts "mixin m\n  p\nblock b\n  block c\ninclude part" 2

/-- A request for more content in one of the blocks, from another template. -/
def moreContent : Request where
  name := "b"
  block :=
    { id := 20, props := { mode := .append }, nodes := [.make (some 21) 1 (.text "more") []] }
  owner := 9
  given := 22
  known := by decide +kernel

theorem includes_isolated_apartPage :
    apartPage.assembly.Given ∧ apartPage.assembly.Apart
      ∧ (let store := apartPage.assembly.store
        let registry := apartPage.assembly.registry
        let copy := registry.snapshot store
        registry.shown (serveAll copy.1 copy.2 [moreContent]).store 2 = registry.shown store 2
        ∧ (serveAll copy.1 copy.2 [moreContent.shifted store.next]).answers
          = (serveAll store registry [moreContent]).answers.map (shiftedBlock store.next))
      ∧ ∃ node after, readInclude localParts apartPage = .ok node after
        ∧ SparesTable (pageTemplate localParts) (statementWith (pageTemplate localParts) 5)
          apartPage after := by
  have hgiven : apartPage.assembly.Given :=
    given_of_entries (by decide +kernel) (by decide +kernel) (by decide +kernel)
  have hapart : apartPage.assembly.Apart :=
    apart_of_closed [5, 6] (by decide +kernel) (by decide +kernel) (by decide +kernel)
      (by decide +kernel)
  have hisolated := includes_isolated hgiven
  refine ⟨hgiven, hapart, ⟨hisolated.1 [moreContent] ?_ 2, ?_⟩, ?_⟩
  · -- the block that is handed in has not been given away yet
    intro request hrequest hholds
    rw [List.mem_singleton.mp hrequest] at hholds
    have hlt := holds_lt hgiven.store hgiven.registry hholds
    revert hlt
    decide +kernel
  · refine (hisolated.2.1 [moreContent] ?_).1
    intro request hrequest id hid
    rw [List.mem_singleton.mp hrequest] at hid
    refine .inr ?_
    revert id
    decide +kernel
  · have hsome : (resultAfter? (readInclude localParts apartPage)).isSome = true := by
      decide +kernel
    obtain ⟨⟨node, after⟩, hfound⟩ := Option.isSome_iff_exists.mp hsome
    have hrun := resultAfter?_eq_some hfound
    exact ⟨node, after, hrun,
      hisolated.2.2 hapart _ 5 5 (pageTemplate localParts) apartPage node after rfl rfl hrun⟩

/-- A part with content below an include, whose template takes a layout. -/
def leakyParts : OrderedMap String String :=
  .ofList [("views/part.jade", "include wrapped\n  p x"), ("views/wrapped.jade", "extends lay"),
    ("views/lay.jade", "h1")]

/-- The page has defined a named block with a `yield` marker, in a mixin definition. -/
def exposedPage : Progress := pageAt leakyParts "mixin m\n  block b\n    yield\ninclude part" 1

/-- The definition of the mixin is moved into the layout, where the content below the inner include
    goes to its marker. -/
theorem include_changes_table :
    exposedPage.assembly.Given
      ∧ ∃ node after, readInclude leakyParts exposedPage = .ok node after
        ∧ ¬ exposedPage.assembly.SameTable after.assembly := by
  have hgiven : exposedPage.assembly.Given :=
    given_of_entries (by decide +kernel) (by decide +kernel) (by decide +kernel)
  have hshown : ∃ found ∈ resultAfter? (readInclude leakyParts exposedPage),
      exposedPage.assembly.registry.shown found.2.assembly.store 1
        ≠ exposedPage.assembly.registry.shown exposedPage.assembly.store 1 := by
    decide +kernel
  obtain ⟨⟨node, after⟩, hfound, hne⟩ := hshown
  exact ⟨hgiven, node, after, resultAfter?_eq_some hfound, fun hsame => hne (hsame.shown 1)⟩

end Stencil
