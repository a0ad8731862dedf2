import Stencil.Proofs.Composition.Culprit
import Stencil.Proofs.Placement.Hoisting

/-! # Shared mixins — what an included template takes from the including one

    An included template works on the including template's table of mixins.  When
    it extends a layout, the whole table is moved into the layout's tree: the
    definitions of the including template too, as far as their names were not
    defined anew in the meantime (`includes_share_mixins`).  This is the only way
    in which nodes that were there come into the tree of an included template.

    The argument is one about origins.  New identities, and those that stand in
    the definitions of the table, are a collection that the store is closed under
    (`closed_held`), and whatever is read afterwards is made of nodes from it.

    New identities alone are such a collection too, with the definitions of the
    table as foreign ones.  So the included template brings nothing of the
    including one when it composes no other template itself and has defined
    anew whatever it found in the table (`absentFrom_iff_left`). -/

namespace Stencil

open Node Registry Store Parse

/-- An identity stands in some trees, as they are in a store. -/
inductive Store.StandsIn (store : Store Draft) (nodes : List Draft) : BlockId → Prop
  | written {part : Draft} {id : BlockId} (hpart : part ∈ preorderAll nodes)
      (hid : part.id? = some id) : StandsIn store nodes id
  | recorded {outer : BlockId} {block : Block BlockId Draft} {part : Draft} {id : BlockId}
      (houter : StandsIn store nodes outer) (hblock : store.current.get? outer = some block)
      (hpart : part ∈ preorderAll block.nodes) (hid : part.id? = some id) :
      StandsIn store nodes id

theorem not_standsIn_nil {store : Store Draft} {id : BlockId} : ¬ store.StandsIn [] id := by
  intro h
  induction h with
  | written hpart => exact nomatch hpart
  | recorded _ _ _ _ ih => exact ih

namespace Assembly

/-- An identity that has not been given away yet, or stands in a definition of the table. -/
def Held (assembly : Assembly) (id : BlockId) : Prop :=
  assembly.store.next ≤ id ∨ assembly.store.StandsIn assembly.mixins.values id

/-- No node that was made so far stands in a tree. -/
def AbsentFrom (assembly : Assembly) (tree : Draft) : Prop :=
  ∀ id, some id ∈ identities tree → assembly.store.next ≤ id

end Assembly

variable {assembly after : Assembly}

/-- What is recorded of a block from the collection is made of nodes from it. -/
theorem closed_held (hgiven : assembly.Given) : assembly.store.Closed assembly.Held := by
  refine ⟨fun id => .inl, fun id block hid hblock => madeOf_ofBlock.mpr ⟨?_, ?_⟩⟩
  · rwa [hgiven.store.keyed id block hblock]
  · rcases hid with hnew | hstands
    · -- a new identity is not recorded
      exact absurd (hgiven.store.given id block hblock) (Nat.not_lt.mpr hnew)
    · intro node hnode part hpart id hid
      exact .inr (.recorded hstands hblock (mem_preorderAll hnode hpart) hid)

/-- So is what stands in the table. -/
theorem mixins_held : ∀ mixin ∈ assembly.mixins.values, mixin.MadeOf assembly.Held := by
  intro mixin hmixin part hpart id hid
  exact .inr (.written (mem_preorderAll hmixin hpart) hid)

/-- The identities in a tree are those of its nodes. -/
theorem Node.MadeOf.of_identities {K : BlockId → Prop} {tree : Draft} (h : tree.MadeOf K)
    {id : BlockId} (hid : some id ∈ identities tree) : K id := by
  rw [identities, walk_eq_preorder] at hid
  obtain ⟨part, hpart, heq⟩ := List.mem_map.mp hid
  exact h part hpart id heq

/-! ## Where the table lists definitions -/

/-- Nothing is in the table when a composition starts, and every statement that is read, with all
    templates it leads to, keeps it so that it lists definitions. -/
theorem listed_statementWith {config : Config} {fuel depth : Nat} {template : Template}
    (hcompose : template.compose = composeWith config fuel) {progress after : Progress}
    (h : progress.assembly.Listed) {node : Draft}
    (hrun : statementWith template depth progress = .ok node after) : after.assembly.Listed :=
  have hstatement := makes_statementWith (hcompose ▸ makes_composeWith config fuel) depth
  (hstatement progress node after hrun h.madeOf).1.listed

/-- It can be computed whether a table lists definitions. -/
theorem listed_of_entries
    (hentries : ∀ entry ∈ assembly.mixins.entries, entry.2.definedName? = some entry.1)
    (hgiven : ∀ mixin ∈ assembly.mixins.values, ∃ id ∈ mixin.id?, id < assembly.store.next)
    (hdistinct : (assembly.mixins.values.map Node.id?).Nodup) : assembly.Listed := by
  refine ⟨hentries, fun mixin hmixin => ?_, hdistinct⟩
  obtain ⟨id, hid, hlt⟩ := hgiven mixin hmixin
  exact ⟨id, hid, hlt⟩

/-! ## Included templates that extend a layout -/

/-- A template includes no other one: its statements are read although none can be composed. -/
def Source.ReadAlone (source : Source) (config : Config) (before : Assembly) : Prop :=
  ∃ result read, readStatements config (composeWith config 0) source before = .ok result read

instance (source : Source) (config : Config) (before : Assembly) :
    Decidable (source.ReadAlone config before) :=
  match h : readStatements config (composeWith config 0) source before with
  | .ok result last => .isTrue ⟨result, last, h⟩
  | .error _ _ => .isFalse fun ⟨_, _, hread⟩ => nomatch h.symm.trans hread

/-- A tree with a new root has no earlier node when the trees below it have none. -/
theorem absentFrom_iff_children {tree : Draft} {root : BlockId} (hroot : tree.id? = some root)
    (hnew : assembly.store.next ≤ root) :
    assembly.AbsentFrom tree ↔ ∀ child ∈ tree.children, assembly.AbsentFrom child := by
  have hidentities : ∀ node : Draft, identities node = node.preorder.map Node.id? := fun node => by
    rw [identities, walk_eq_preorder]
  have hids : ids tree.children = tree.children.flatMap identities := by
    rw [ids, preorderAll_eq_flatMap, List.map_flatMap]
    exact List.flatMap_congr fun child _ => (hidentities child).symm
  unfold Assembly.AbsentFrom
  rw [identities_eq, hroot, hids]
  constructor
  · intro h child hchild id hid
    exact h id (List.mem_cons_of_mem _ (List.mem_flatMap.mpr ⟨child, hchild, hid⟩))
  · intro h id hid
    rcases List.mem_cons.mp hid with heq | hid
    · exact Option.some.inj heq ▸ hnew
    · obtain ⟨child, hchild, hid⟩ := List.mem_flatMap.mp hid
      exact h child hchild id hid

section

variable {tree : Draft} (hlisted : assembly.Listed)

include hlisted

/-- A definition of the table is an earlier node. -/
theorem not_absentFrom {mixin : Draft} (hmixin : mixin ∈ assembly.mixins.values)
    (hplaced : mixin.id? ∈ identities tree) : ¬ assembly.AbsentFrom tree := by
  intro habsent
  obtain ⟨id, hid, hlt⟩ := hlisted.given mixin hmixin
  exact Nat.not_le.mpr hlt (habsent id (hid ▸ hplaced))

/-- Where every definition of the table has a place, and no earlier node has one, each name is
    defined anew. -/
theorem definesNew_of_absentFrom (htable : ∀ name, after.mixins.get? name
      = assembly.mixins.get? name ∨ assembly.DefinesNew after name)
    (hplaced : ∀ mixin ∈ after.mixins.values, mixin.id? ∈ identities tree)
    (habsent : assembly.AbsentFrom tree) {name : String}
    (hname : (assembly.mixins.get? name).isSome) : assembly.DefinesNew after name := by
  refine (htable name).resolve_left fun hsame => ?_
  obtain ⟨mixin, hmixin⟩ := Option.isSome_iff_exists.mp hname
  have hin := hplaced mixin (OrderedMap.mem_values_of_get? (hsame.trans hmixin))
  exact not_absentFrom hlisted (OrderedMap.mem_values_of_get? hmixin) hin habsent

end

section

variable {config : Config} {fuel : Nat} {source : Source} {layout : Layout}
  {read middle final : Assembly} {inner composed : Composed}
  (h : Placement.Extends config fuel source assembly.copied layout read inner middle composed final)

include h

/-- No earlier node is in the tree exactly when none is in a definition that is moved, and none in
    the layout's own tree. -/
theorem absentFrom_iff_parts (hcopied : assembly.copied.Given)
    (huntangled : final.store.Untangled [composed.root.id])
    (halone : Placement.RootAlone composed.root final.store)
    (hnew : assembly.store.next ≤ composed.root.id) :
    let own := middle.store.resolve (.ofBlock inner.root)
    assembly.AbsentFrom (final.store.resolve (.ofBlock composed.root))
      ↔ (∀ mixin ∈ homelessMixins final.mixins own,
          assembly.AbsentFrom (final.store.resolve mixin))
        ∧ assembly.AbsentFrom own := by
  intro own
  have hhoisted := h.hoisted hcopied huntangled
  have hown : own.id? = some inner.root.id := by
    show (middle.store.resolve (.ofBlock inner.root)).id? = _
    rw [(hhoisted.untangled huntangled).resolve_ofBlock]
    exact congrArg some ((h.given hcopied).2.2.1.store.keyed.read_id inner.root)
  have htree : (final.store.resolve (.ofBlock composed.root)).id? = some inner.root.id :=
    (hhoisted.id?_eq huntangled).trans hown
  have hroot : assembly.store.next ≤ inner.root.id := hhoisted.id ▸ hnew
  rw [absentFrom_iff_children htree hroot, absentFrom_iff_children hown hroot,
    hhoisted.children_eq halone huntangled, List.forall_mem_append, List.forall_mem_map]

/-- **A template that includes no other one brings no earlier node exactly when no earlier
    definition is left in the table.** -/
theorem absentFrom_iff_left (hgiven : assembly.Given) (hlisted : assembly.Listed)
    (hread : source.ReadAlone config assembly.copied)
    (hplaced : ∀ mixin ∈ final.mixins.values,
      mixin.id? ∈ identities (final.store.resolve (.ofBlock composed.root))) :
    assembly.AbsentFrom (final.store.resolve (.ofBlock composed.root))
      ↔ ∀ mixin ∈ assembly.mixins.values, mixin ∉ final.mixins.values := by
  constructor
  · intro habsent mixin hmixin hleft
    exact not_absentFrom hlisted hmixin (hplaced mixin hleft) habsent
  · intro hgone id hid
    -- the new identities are a collection, with the definitions of the table as foreign ones
    have hclosed : assembly.store.Closed (assembly.store.next ≤ ·) :=
      ⟨fun _ hnew => hnew, fun id block hnew hblock =>
        absurd (hgiven.store.given id block hblock) (Nat.not_lt.mpr hnew)⟩
    obtain ⟨nodes, hstatements⟩ := h.statements
    obtain ⟨result, last, halone⟩ := hread
    have hmends : Mends (composeWith config fuel) (composeWith config 0) := nofun
    cases (readStatements_of_mends hmends halone).symm.trans hstatements
    obtain ⟨hmade, -, -⟩ := makes_readStatements (fun _ => makes_throw _) _ _ _ halone
      (madeOf_copied hclosed (fun _ => .inr) hlisted)
    -- none of these is in the table any more
    have hclean : read.MadeOf (assembly.store.next ≤ ·) [] := by
      refine ⟨hmade.store, hmade.registry, fun mixin hmixin => .inl ?_, hmade.listed⟩
      refine (hmade.mixins mixin hmixin).resolve_right fun hforeign => ?_
      exact hgone mixin hforeign (h.mixins_eq ▸ hmixin)
    obtain ⟨hafter, -, hroot⟩ :=
      makes_composeLayout (makes_composeWith config fuel) layout _ _ _ h.composeLayout_eq hclean
    exact (hafter.store.resolveWith _ _ hroot).of_identities hid

end

/-- **Shared mixins.**  The tree of an included template that extends a layout has, at its front,
    the definitions of the shared table that have no place in the layout's tree, and every
    definition of the table has a place in it.  Under each name this is the including template's
    definition or one that was made since.  Nothing else that was there before is in the tree.  So
    the tree has no node of the including template when the table has none, and only if each name
    in the table is defined anew.

    It has none exactly when there is none in the definitions that are moved and in the layout's
    tree.  For a template that includes no other one this is to say that the table has none of the
    including template's definitions left. -/
theorem includes_share_mixins {config : Config} {fuel : Nat} {template : Template}
    {source : Source} {composed : Composed}
    (hcompose : template.compose = composeWith config fuel) (hgiven : assembly.Given)
    (hlisted : assembly.Listed)
    (hrun : composeInclude template source assembly = .ok composed after)
    (hlayout : composed.layout.isSome) (huntangled : after.store.Untangled [composed.root.id]) :
    let tree := after.store.resolve (.ofBlock composed.root)
    (∀ id, some id ∈ identities tree → assembly.Held id)
      ∧ (∀ name, after.mixins.get? name = assembly.mixins.get? name
        ∨ assembly.DefinesNew after name)
      ∧ (∀ mixin ∈ after.mixins.values, mixin.id? ∈ identities tree)
      ∧ (assembly.mixins.values = [] → assembly.AbsentFrom tree)
      ∧ (assembly.AbsentFrom tree → ∀ name, (assembly.mixins.get? name).isSome →
        assembly.DefinesNew after name)
      ∧ (source.ReadAlone config assembly.copied → (assembly.AbsentFrom tree
        ↔ ∀ mixin ∈ assembly.mixins.values, mixin ∉ after.mixins.values))
      ∧ ∃ fuel layout read inner middle final,
        Placement.Extends config fuel source assembly.copied layout read inner middle composed final
          ∧ after = { final with registry := assembly.registry }
          ∧ let own := middle.store.resolve (.ofBlock inner.root)
            tree.children
                = (homelessMixins after.mixins own).map after.store.resolve ++ own.children
              ∧ (assembly.AbsentFrom tree
                ↔ (∀ mixin ∈ homelessMixins after.mixins own,
                    assembly.AbsentFrom (after.store.resolve mixin))
                  ∧ assembly.AbsentFrom own) := by
  intro tree
  obtain ⟨final, hfinal, rfl⟩ := composeInclude_eq_ok hrun
  rw [hcompose] at hfinal
  -- where the nodes of the tree come from
  obtain ⟨hmade, hgrows, hroot⟩ := makes_composeWith config fuel source _ _ _ hfinal
    (madeOf_copied (closed_held hgiven) (fun mixin hmixin => .inl (mixins_held mixin hmixin))
      hlisted)
  have hheld : ∀ id, some id ∈ identities tree → assembly.Held id := fun id =>
    (hmade.store.resolveWith _ _ hroot).of_identities
  have hcopies : assembly.Grows assembly.copied := .of_same rfl (Nat.le_add_right _ _)
  have htable : ∀ name, final.mixins.get? name = assembly.mixins.get? name
      ∨ assembly.DefinesNew final name := (hcopies.trans hgrows).mixins
  -- where the definitions of the table go
  have hcopied : assembly.copied.Given :=
    (keeps_copied hgiven.store (fun id hid => (hgiven.registry id hid).2) hgiven.mixins).within
  obtain ⟨fuel', layout, read, inner, middle, hextends⟩ := Placement.exists_extends hfinal hlayout
  obtain ⟨hnew, halone⟩ := Placement.rootAlone_composeWith config fuel hcopied hfinal
  have hplaced : ∀ mixin ∈ final.mixins.values, mixin.id? ∈ identities tree := fun mixin =>
    hextends.mem_identities hcopied huntangled halone hmade.listed
  have hparts := absentFrom_iff_parts hextends hcopied huntangled halone
    (Nat.le_trans (Nat.le_add_right _ _) hnew)
  have hleft := fun hread => absentFrom_iff_left hextends hgiven hlisted hread hplaced
  refine ⟨hheld, htable, hplaced, fun hnone id hid => ?_,
    fun habsent name => definesNew_of_absentFrom hlisted htable hplaced habsent,
    hleft, fuel', layout, read, inner, middle, final, hextends, rfl,
    (hextends.hoisted hcopied huntangled).children_eq halone huntangled, hparts⟩
  -- an identity that is held is new where nothing stands in the table
  exact (hheld id hid).resolve_right fun hstands => not_standsIn_nil (hnone ▸ hstands)

/-! ### Two definitions, one of which is defined anew -/

/-- A part that extends a layout and defines one mixin of the page anew. -/
def anewParts : OrderedMap String String :=
  .ofList [("views/part.jade", "extends lay\nmixin m\n  h2"), ("views/lay.jade", "h1")]

/-- The page has defined two mixins. -/
def sharingPage : Progress := pageAt anewParts "mixin m\n  p\nmixin n\n  p\ninclude part" 2

/-- The part, as it is read for the page. -/
def includedPart (text : String) : Source :=
  { text, filename := "views/part.jade", lineage := ["views/page.jade"] }

/-- The part, composed for the page. -/
def composedPart (parts : OrderedMap String String) (text : String) (page : Progress) :
    EStateM.Result Fault Assembly Composed :=
  composeInclude (pageTemplate parts) (includedPart text) page.assembly

theorem includes_share_mixins_anew :
    ∃ composed after, composedPart anewParts "extends lay\nmixin m\n  h2" sharingPage
        = .ok composed after
      ∧ sharingPage.assembly.mixins.keys = ["m", "n"]
      ∧ let tree := after.store.resolve (.ofBlock composed.root)
        (∀ id, some id ∈ identities tree → sharingPage.assembly.Held id)
          ∧ (∀ name, after.mixins.get? name = sharingPage.assembly.mixins.get? name
            ∨ sharingPage.assembly.DefinesNew after name)
          ∧ (∀ mixin ∈ after.mixins.values, mixin.id? ∈ identities tree)
          ∧ ¬ sharingPage.assembly.AbsentFrom tree := by
  have hcomposed : ∃ found ∈ resultAfter?
      (composedPart anewParts "extends lay\nmixin m\n  h2" sharingPage),
      found.1.layout.isSome = true
        ∧ (∀ entry ∈ found.2.store.current.entries,
          ∀ inner ∈ entry.2.nodes.flatMap blockIds, inner < entry.1)
        ∧ ∃ mixin ∈ sharingPage.assembly.mixins.values, mixin ∈ found.2.mixins.values := by
    decide +kernel
  obtain ⟨⟨composed, after⟩, hfound, hlayout, hrank, mixin, hmixin, hleft⟩ := hcomposed
  have hrun := resultAfter?_eq_some hfound
  have hgiven : sharingPage.assembly.Given :=
    given_of_entries (by decide +kernel) (by decide +kernel) (by decide +kernel)
  have hlisted : sharingPage.assembly.Listed :=
    listed_of_entries (by decide +kernel) (by decide +kernel) (by decide +kernel)
  obtain ⟨hheld, htable, hplaced, -, -, hiff, -⟩ :=
    includes_share_mixins rfl hgiven hlisted hrun hlayout (untangled_of_rank id hrank _)
  -- the definition of the other mixin is left
  have hread : (includedPart "extends lay\nmixin m\n  h2").ReadAlone (pageTemplate anewParts).config
      sharingPage.assembly.copied := by
    decide +kernel
  exact ⟨composed, after, hrun, by decide +kernel, hheld, htable, hplaced,
    fun habsent => (hiff hread).mp habsent mixin hmixin hleft⟩

/-- A part that extends a layout and defines nothing. -/
def plainParts : OrderedMap String String :=
  .ofList [("views/part.jade", "extends lay"), ("views/lay.jade", "h1")]

/-- The page has defined a mixin. -/
def definingPage : Progress := pageAt plainParts "mixin m\n  p\ninclude part" 1

/-- The page's definition is moved into the tree of the part. -/
theorem include_takes_definition :
    ∃ mixin ∈ definingPage.assembly.mixins.get? "m",
      ∃ composed after, composedPart plainParts "extends lay" definingPage = .ok composed after
        ∧ mixin.id? ∈ identities (after.store.resolve (.ofBlock composed.root)) := by
  have hcomposed : ∃ mixin ∈ definingPage.assembly.mixins.get? "m",
      ∃ found ∈ resultAfter? (composedPart plainParts "extends lay" definingPage),
        mixin.id? ∈ identities (found.2.store.resolve (.ofBlock found.1.root)) := by
    decide +kernel
  obtain ⟨mixin, hmixin, ⟨composed, after⟩, hfound, hplaced⟩ := hcomposed
  exact ⟨mixin, hmixin, composed, after, resultAfter?_eq_some hfound, hplaced⟩

end Stencil
