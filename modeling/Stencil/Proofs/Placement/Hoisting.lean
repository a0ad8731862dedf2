import Stencil.Proofs.Composition.Isolation
import Stencil.Proofs.Composition.Origins
import Stencil.Proofs.Placement.Untangled

/-! # Hoisting — where the mixin definitions of a template come to stand

    A template that extends a layout is composed to the layout's tree.  The
    definitions in its table that have no place there are moved to the front, in
    the order of the table, and what was there stays as it was
    (`Extends.children_eq`): the root of the layout's tree stands nowhere else,
    so that nothing in the tree changes with it (`rootAlone_composeWith`).

    So every definition has a place.  It has one place alone when it has no more
    than one in the layout's tree and stands inside none of those that are moved
    (`definition_placedOnce_iff`).  A definition inside another one is in the
    table by itself, and is moved although it is moved with the outer one
    (`definition_repeats_nested`). -/

namespace Stencil

open Node Registry Store Parse

namespace Placement

variable {config : Config} {fuel : Nat} {source : Source} {before read middle after : Assembly}
  {layout : Layout} {inner composed : Composed}

/-! ## Templates with a layout -/

/-- A template that extends a layout has been composed: it was read, its layout was composed with
    mixins of its own, and the template's mixins were moved into the layout's tree. -/
structure Extends (config : Config) (fuel : Nat) (source : Source) (before : Assembly)
    (layout : Layout) (read : Assembly) (inner : Composed) (middle : Assembly)
    (composed : Composed) (after : Assembly) : Prop where
  statements : ∃ nodes,
    readStatements config (composeWith config fuel) source before = .ok (nodes, some layout) read
  composing : composeWith config fuel (layoutSource layout source) (forLayout read)
    = .ok inner middle
  hoisting : hoistMixins layout inner.root { middle with mixins := read.mixins }
    = .ok composed.root after

theorem exists_extends (hrun : composeWith config fuel source before = .ok composed after)
    (hlayout : composed.layout.isSome) :
    ∃ fuel layout read inner middle,
      Extends config fuel source before layout read inner middle composed after := by
  cases fuel with
  | zero => exact nomatch hrun
  | succ fuel =>
      obtain ⟨⟨nodes, layout?⟩, read, hread, hrest⟩ := bind_eq_ok hrun
      cases layout? with
      | none =>
          obtain ⟨root, middle, -, hrest⟩ := bind_eq_ok hrest
          cases hrest
          exact nomatch hlayout
      | some layout =>
          obtain ⟨root, middle, hroot, hrest⟩ := bind_eq_ok hrest
          cases hrest
          obtain ⟨inner, middle, hinner, hhoist⟩ := composeLayout_eq_ok hroot
          exact ⟨fuel, layout, read, inner, middle, ⟨nodes, hread⟩, hinner, hhoist⟩

/-- The layout was composed. -/
theorem Extends.composeLayout_eq
    (h : Extends config fuel source before layout read inner middle composed after) :
    composeLayout (composeWith config fuel) source layout read = .ok composed.root after := by
  show EStateM.bind (composeWith config fuel (layoutSource layout source)) _ (forLayout read) = _
  rw [EStateM.bind, h.composing]
  exact h.hoisting

/-! ## The root of a tree -/

/-- The root of a tree stands in no block, and not in itself. -/
structure RootAlone (root : Block BlockId Draft) (store : Store Draft) : Prop where
  inside : ∀ id, root.id ∉ inside store id
  nodes : root.id ∉ root.nodes.flatMap blockIds

theorem RootAlone.not_mem_read {root : Block BlockId Draft} {store : Store Draft}
    (h : RootAlone root store) : root.id ∉ (store.read root).nodes.flatMap blockIds := by
  cases hstate : store.current.get? root.id with
  | none =>
      rw [read_of_unrecorded hstate]
      exact h.nodes
  | some state =>
      have hinside := h.inside root.id
      rw [Registry.inside, hstate] at hinside
      rwa [read_of_current hstate]

/-- Nodes that stand in other blocks may be put into the root. -/
theorem RootAlone.hoist {root placed : Block BlockId Draft} {store : Store Draft}
    (h : RootAlone root store) (hkeyed : store.Keyed) {moved : List Draft}
    (hmoved : root.id ∉ moved.flatMap blockIds)
    (hplaced : placed = { store.read root with nodes := moved ++ (store.read root).nodes }) :
    RootAlone placed (store.write placed) := by
  have hid : placed.id = root.id := by rw [hplaced, hkeyed.read_id]
  have hnodes : placed.id ∉ placed.nodes.flatMap blockIds := by
    rw [hid, hplaced, List.flatMap_append]
    exact fun hmem => (List.mem_append.mp hmem).elim hmoved h.not_mem_read
  refine ⟨fun id hmem => ?_, hnodes⟩
  rcases mem_inside_write hmem with ⟨-, hnew⟩ | hold
  · exact hnodes hnew
  · exact h.inside id (hid ▸ hold)

/-- What is shared after a template and its layout were read has identities that were given
    away. -/
theorem Extends.given (h : Extends config fuel source before layout read inner middle composed
    after) (hgiven : before.Given) :
    read.Given ∧ before.store.next ≤ read.store.next ∧ middle.Given
      ∧ Assembly.Given { middle with mixins := read.mixins } := by
  obtain ⟨nodes, hread⟩ := h.statements
  obtain ⟨hkeeps, -⟩ := confined_readStatements (confined_composeWith config fuel) []
    _ _ _ hread hgiven nofun
  have hempty : (forLayout read).Given := ⟨hkeeps.within.store, hkeeps.within.registry, nofun⟩
  obtain ⟨hlayout, -⟩ := confined_composeWith config fuel _ [] _ _ _ h.composing hempty nofun
  exact ⟨hkeeps.within, hkeeps.changes.next, hlayout.within, hlayout.within.store,
    hlayout.within.registry, hkeeps.within.mixins.mono hlayout.changes.next⟩

/-- **The root of a composed tree stands nowhere else**: it is a new block, and nothing that is
    shared mentions it. -/
theorem rootAlone_composeWith (config : Config) (fuel : Nat) :
    ∀ {source before composed after}, before.Given →
      composeWith config fuel source before = .ok composed after →
        before.store.next ≤ composed.root.id ∧ RootAlone composed.root after.store := by
  induction fuel with
  | zero => exact fun _ hrun => nomatch hrun
  | succ fuel ih =>
      intro source before composed after hgiven hrun
      obtain ⟨nodes, layout?, read, hread, hrest⟩ := composeStep_eq_ok hrun
      obtain ⟨hkeeps, hnodes⟩ := confined_readStatements (confined_composeWith config fuel) []
        _ _ _ hread hgiven nofun
      have hnext := hkeeps.changes.next
      cases layout? with
      | none =>
          obtain ⟨root, layout⟩ := composed
          cases hrest
          refine ⟨hnext, fun id hmem => ?_, fun hmem => ?_⟩
          · exact Nat.lt_irrefl _ (hkeeps.within.store.bounded id _ hmem)
          · exact Nat.lt_irrefl _ (hnodes _ hmem).2
      | some layout =>
          obtain ⟨inner, middle, hlayout, hhoist⟩ := composeLayout_eq_ok hrest
          have hextends : Extends config fuel source before layout read inner middle composed
              after := ⟨⟨nodes, hread⟩, hlayout, hhoist⟩
          obtain ⟨hread, -, hmiddle, -⟩ := hextends.given hgiven
          have hempty : (forLayout read).Given := ⟨hread.store, hread.registry, nofun⟩
          obtain ⟨hle, halone⟩ := ih hempty hlayout
          obtain ⟨store, log, rfl, hcases⟩ := hoistMixins_eq_ok hhoist
          rcases hcases with ⟨-, hplaced, rfl⟩ | ⟨rfl, hplaced⟩
          · rw [hplaced]
            exact ⟨Nat.le_trans hnext hle, halone⟩
          · -- the definitions that are moved were there before the root
            have hmoved : inner.root.id ∉ List.flatMap blockIds (homelessMixins read.mixins
                (.ofBlock (middle.store.resolveBlock inner.root))) := by
              intro hmem
              obtain ⟨mixin, hmixin, hstands⟩ := List.mem_flatMap.mp hmem
              have hlt := (hread.mixins _ (List.mem_flatMap.mpr
                ⟨mixin, (List.mem_filter.mp hmixin).1, hstands⟩)).2
              exact Nat.not_le.mpr hlt hle
            have hid : composed.root.id = inner.root.id := by
              rw [hplaced]
              exact hmiddle.store.keyed.read_id _
            exact ⟨hid ▸ Nat.le_trans hnext hle,
              halone.hoist hmiddle.store.keyed hmoved hplaced⟩

/-! ## The tree after hoisting -/

/-- What hoisting does to the store: the root takes in the definitions that are moved, and nothing
    else is changed. -/
structure Hoisted (root placed : Block BlockId Draft) (moved : List Draft)
    (store after : Store Draft) : Prop where
  id : placed.id = root.id
  read : after.read placed
    = { store.read root with nodes := moved ++ (store.read root).nodes }
  other : ∀ id ≠ root.id, store.current.get? id = after.current.get? id
  inside : ∀ id, Registry.inside store id ⊆ Registry.inside after id
  size : after.current.size ≤ store.current.size + 1
  recorded : moved = [] ∧ after = store ∨ (after.current.get? placed.id).isSome

theorem hoisted_of_eq_ok {root placed : Block BlockId Draft} (hkeyed : before.store.Keyed)
    (hrun : hoistMixins layout root before = .ok placed after) :
    Hoisted root placed
      (homelessMixins before.mixins (.ofBlock (before.store.resolveBlock root)))
      before.store after.store := by
  obtain ⟨store, log, rfl, hcases⟩ := hoistMixins_eq_ok hrun
  generalize homelessMixins _ _ = moved at hcases ⊢
  rcases hcases with ⟨rfl, rfl, rfl⟩ | ⟨hstore, hplaced⟩
  · exact ⟨rfl, rfl, fun _ _ => rfl, fun _ => List.Subset.refl _, Nat.le_succ _,
      .inl ⟨rfl, rfl⟩⟩
  · have hid : placed.id = root.id := by rw [hplaced, hkeyed.read_id]
    have hself : store.current.get? placed.id = some placed := by
      rw [hstore, current_write, if_pos rfl]
    have hother : ∀ id ≠ root.id,
        before.store.current.get? id = store.current.get? id := by
      intro id hne
      rw [hstore, current_write, if_neg (hid ▸ hne)]
    refine ⟨hid, (read_of_current hself).trans hplaced, hother, fun id inner hinner => ?_, ?_,
      .inr (hself ▸ rfl)⟩
    · by_cases heq : id = root.id
      · -- the root keeps what it had
        obtain ⟨state, hstate⟩ := Option.isSome_iff_exists.mp (recorded_of_inside (heq ▸ hinner))
        rw [heq, inside_of_current hstate] at hinner
        rw [heq, ← hid, inside_of_current hself, hplaced, read_of_current hstate]
        show inner ∈ (moved ++ state.nodes).flatMap blockIds
        rw [List.flatMap_append]
        exact List.mem_append_right _ hinner
      · rwa [Registry.inside, ← hother id heq, ← Registry.inside]
    · rw [hstore, write, OrderedMap.size, OrderedMap.size, ← List.length_map (f := Prod.fst),
        ← List.length_map (f := Prod.fst)]
      show (before.store.current.insert placed.id placed).keys.length
        ≤ before.store.current.keys.length + 1
      rw [OrderedMap.keys_insert]
      split <;> simp

section

variable {root placed : Block BlockId Draft} {moved : List Draft} {store after : Store Draft}
  (h : Hoisted root placed moved store after) (halone : RootAlone placed after)
  (huntangled : after.Untangled [placed.id])

include h huntangled

theorem Hoisted.untangled : store.Untangled [root.id] :=
  h.id ▸ huntangled.anti h.inside

/-- The root keeps its identity. -/
theorem Hoisted.id?_eq :
    (after.resolve (.ofBlock placed)).id? = (store.resolve (.ofBlock root)).id? := by
  rw [huntangled.resolve_ofBlock, (h.untangled huntangled).resolve_ofBlock]
  show some (after.read placed).id = some (store.read root).id
  rw [h.read]

include halone

/-- Nothing changes in the layout's own nodes. -/
theorem Hoisted.map_resolve :
    (store.read root).nodes.map after.resolve = (store.read root).nodes.map store.resolve := by
  rcases h.recorded with ⟨-, rfl⟩ | hrecorded
  · rfl
  · obtain ⟨state, hstate⟩ := Option.isSome_iff_exists.mp hrecorded
    have hkept : ∀ id ∈ (store.read root).nodes.flatMap blockIds,
        id ∈ (after.read placed).nodes.flatMap blockIds := by
      intro id hid
      rw [h.read]
      show id ∈ (moved ++ (store.read root).nodes).flatMap blockIds
      rw [List.flatMap_append]
      exact List.mem_append_right _ hid
    have hreached : ∀ id ∈ (store.read root).nodes.flatMap blockIds,
        after.Reaches [placed.id] id := by
      intro id hid
      refine (Reaches.root List.mem_cons_self).down ?_
      rw [inside_of_current hstate, ← read_of_current hstate]
      exact hkept id hid
    have hother : ∀ id, after.Reaches ((store.read root).nodes.flatMap blockIds) id →
        store.current.get? id = after.current.get? id := by
      -- the root is not met on the way down
      intro id hid
      refine h.other id fun heq => ?_
      rw [heq, ← h.id] at hid
      cases hid with
      | root hmem => exact halone.not_mem_read (hkept _ hmem)
      | down _ hinner => exact halone.inside _ hinner
    exact ((huntangled.of_reaches hreached).map_resolve hother h.size fun _ => .root).symm

/-- **What is moved comes first**, and what was there stays as it was. -/
theorem Hoisted.children_eq :
    (after.resolve (.ofBlock placed)).children
      = moved.map after.resolve ++ (store.resolve (.ofBlock root)).children := by
  rw [huntangled.resolve_ofBlock, (h.untangled huntangled).resolve_ofBlock]
  show (after.resolveBlock placed).nodes = _ ++ (store.resolveBlock root).nodes
  rw [resolveBlock, resolveBlock, h.read, ← h.map_resolve halone huntangled]
  exact List.map_append

end

/-! ## Places of a definition -/

section

variable {store : Store Draft}

/-- A definition keeps its identity in its current state. -/
theorem id?_resolve {mixin : Draft} (h : mixin.definedName?.isSome) :
    (store.resolve mixin).id? = mixin.id? := by
  obtain ⟨own, line, kind, children⟩ := mixin
  cases kind with
  | block id props => exact nomatch h
  | _ => rfl

/-- A definition stands among others, or inside one of them. -/
theorem count_ids_definitions (id : Option BlockId) {mixins : List Draft}
    (h : ∀ mixin ∈ mixins, mixin.definedName?.isSome) :
    (ids (mixins.map store.resolve)).count id = (mixins.map Node.id?).count id
      + (mixins.flatMap fun mixin => ids (store.resolve mixin).children).count id := by
  induction mixins with
  | nil => rfl
  | cons mixin mixins ih =>
      obtain ⟨hdefines, hrest⟩ := List.forall_mem_cons.mp h
      have hself : (store.resolve mixin).id? = mixin.id? := id?_resolve hdefines
      have hcons : ids ((mixin :: mixins).map store.resolve)
          = mixin.id? :: ids (store.resolve mixin).children ++ ids (mixins.map store.resolve) := by
        rw [← hself, ← ids_singleton, ← ids_append]
        rfl
      rw [hcons, List.map_cons, List.flatMap_cons, List.count_append, ih hrest,
        List.count_append, List.count_cons, List.count_cons]
      omega

/-- A definition of a table is moved once when it has no place, and otherwise not at all. -/
theorem count_homelessMixins {mixins : OrderedMap String Draft}
    (hdistinct : (mixins.values.map Node.id?).Nodup) (own : Draft) {mixin : Draft}
    (hmixin : mixin ∈ mixins.values) :
    ((homelessMixins mixins own).map Node.id?).count mixin.id?
      = if (identities own).count mixin.id? = 0 then 1 else 0 := by
  have hnodup : ((homelessMixins mixins own).map Node.id?).Nodup :=
    hdistinct.sublist (List.filter_sublist.map _)
  split
  · next hzero =>
      have hmoved : mixin ∈ homelessMixins mixins own := by
        rw [List.count_eq_zero] at hzero
        simp [homelessMixins, hmixin, hzero]
      exact List.count_eq_one_of_mem hnodup (List.mem_map_of_mem hmoved)
  · next hplaced =>
      -- what is moved has no place, and there is one node of this identity
      refine List.count_eq_zero.mpr fun hid => hplaced ?_
      obtain ⟨other, hother, heq⟩ := List.mem_map.mp hid
      have hnot := (List.mem_filter.mp hother).2
      rw [List.count_eq_zero, ← heq]
      simpa using hnot

end

section

variable (h : Extends config fuel source before layout read inner middle composed after)
  (hgiven : before.Given) (huntangled : after.store.Untangled [composed.root.id])

include h

theorem Extends.mixins_eq : after.mixins = read.mixins := by
  obtain ⟨_, _, rfl, -⟩ := hoistMixins_eq_ok h.hoisting
  rfl

include hgiven huntangled

/-- The definitions without a place in the layout's tree are put to its front. -/
theorem Extends.hoisted :
    Hoisted inner.root composed.root
      (homelessMixins after.mixins (middle.store.resolve (.ofBlock inner.root)))
      middle.store after.store := by
  have hhoisted := hoisted_of_eq_ok (h.given hgiven).2.2.2.store.keyed h.hoisting
  rw [(hhoisted.untangled huntangled).resolve_ofBlock, h.mixins_eq]
  exact hhoisted

variable (halone : RootAlone composed.root after.store)

include halone

/-- How often a node stands in the tree: as a definition that is moved, inside of one, and in the
    layout's tree. -/
theorem Extends.count_identities (hlisted : after.Listed) (id : Option BlockId) :
    let own := middle.store.resolve (.ofBlock inner.root)
    let moved := homelessMixins after.mixins own
    (identities (after.store.resolve (.ofBlock composed.root))).count id
      = (moved.map Node.id?).count id
        + (moved.flatMap fun mixin => ids (after.store.resolve mixin).children).count id
        + (identities own).count id := by
  intro own moved
  have hhoisted : Hoisted inner.root composed.root moved middle.store after.store :=
    h.hoisted hgiven huntangled
  have hchildren : (after.store.resolve (.ofBlock composed.root)).children
      = moved.map after.store.resolve ++ own.children :=
    hhoisted.children_eq halone huntangled
  have hroot : (after.store.resolve (.ofBlock composed.root)).id? = own.id? :=
    hhoisted.id?_eq huntangled
  have hmoved : ∀ mixin ∈ moved, mixin.definedName?.isSome := fun mixin hmem =>
    hlisted.isSome_definedName? mixin (List.mem_filter.mp hmem).1
  rw [identities_eq, identities_eq, hroot, hchildren, ids_append, List.count_cons,
    List.count_append, List.count_cons, count_ids_definitions id hmoved]
  omega

/-- **Every definition of the table has a place.** -/
theorem Extends.mem_identities (hlisted : after.Listed) {mixin : Draft}
    (hmixin : mixin ∈ after.mixins.values) :
    mixin.id? ∈ identities (after.store.resolve (.ofBlock composed.root)) := by
  rw [← List.count_pos_iff, h.count_identities hgiven huntangled halone hlisted,
    count_homelessMixins hlisted.distinct _ hmixin]
  split <;> omega

end

/-- **Hoisting.**  A template that extends a layout is composed to the definitions of its table that
    have no place in the layout's tree, in the order of the table, and then the layout's own nodes
    as they were.  Every definition of the table has a place.  It has one alone exactly when it has
    no more than one in the layout's tree, and stands inside none of the definitions that are
    moved. -/
theorem definition_placedOnce_iff
    (hrun : composeWith config fuel source before = .ok composed after)
    (hlayout : composed.layout.isSome) (hgiven : before.Given) (hlisted : before.Listed)
    (huntangled : after.store.Untangled [composed.root.id]) :
    ∃ fuel layout read inner middle,
      Extends config fuel source before layout read inner middle composed after
        ∧ after.mixins = read.mixins
        ∧ let own := middle.store.resolve (.ofBlock inner.root)
          let tree := after.store.resolve (.ofBlock composed.root)
          let moved := homelessMixins after.mixins own
          tree.children = moved.map after.store.resolve ++ own.children
            ∧ ∀ mixin ∈ after.mixins.values, mixin.id? ∈ identities tree
              ∧ ((identities tree).count mixin.id? = 1
                ↔ (identities own).count mixin.id? ≤ 1
                  ∧ ∀ other ∈ moved, mixin.id? ∉ ids (after.store.resolve other).children) := by
  obtain ⟨fuel', layout, read, inner, middle, h⟩ := exists_extends hrun hlayout
  have halone := (rootAlone_composeWith config fuel hgiven hrun).2
  have hafter : after.Listed :=
    (makes_composeWith config fuel source _ _ _ hrun hlisted.madeOf).1.listed
  refine ⟨fuel', layout, read, inner, middle, h, h.mixins_eq, ?_⟩
  intro own tree moved
  have hhoisted := h.hoisted hgiven huntangled
  refine ⟨hhoisted.children_eq halone huntangled, fun mixin hmixin => ?_⟩
  have hcount : (identities tree).count mixin.id? = (moved.map Node.id?).count mixin.id?
      + (moved.flatMap fun other => ids (after.store.resolve other).children).count mixin.id?
      + (identities own).count mixin.id? :=
    h.count_identities hgiven huntangled halone hafter mixin.id?
  have hself : (moved.map Node.id?).count mixin.id?
      = if (identities own).count mixin.id? = 0 then 1 else 0 :=
    count_homelessMixins hafter.distinct own hmixin
  have hinner : (moved.flatMap fun other => ids (after.store.resolve other).children).count
      mixin.id? = 0 ↔ ∀ other ∈ moved, mixin.id? ∉ ids (after.store.resolve other).children := by
    rw [List.count_eq_zero, List.mem_flatMap]
    push Not
    exact Iff.rfl
  refine ⟨h.mem_identities hgiven huntangled halone hafter hmixin, ?_⟩
  rw [← hinner, hcount, hself]
  split <;> omega

/-! ### Definitions beside one another, and one inside another -/

/-- A layout with a block. -/
def plainLayout : Config :=
  { loader := some (.ofTemplates [("views/layout.jade", "html\n  block content\n")]) }

/-- A page that defines a mixin of its own and another one in the block of the layout. -/
def mixinsPage : String :=
  "extends layout\nmixin item\n  li\nblock content\n  mixin note\n    p\n"

theorem definition_placedOnce_iff_beside :
    ∃ composed after, compose plainLayout mixinsPage "views/page.jade" {} = .ok composed after
      ∧ after.mixins.keys = ["item", "note"]
      ∧ ∃ fuel layout read inner middle,
        Extends plainLayout fuel { text := mixinsPage, filename := "views/page.jade" } {} layout
            read inner middle composed after
          ∧ after.mixins = read.mixins
          ∧ let own := middle.store.resolve (.ofBlock inner.root)
            let tree := after.store.resolve (.ofBlock composed.root)
            let moved := homelessMixins after.mixins own
            tree.children = moved.map after.store.resolve ++ own.children
              ∧ ∀ mixin ∈ after.mixins.values, mixin.id? ∈ identities tree
                ∧ ((identities tree).count mixin.id? = 1
                  ↔ (identities own).count mixin.id? ≤ 1
                    ∧ ∀ other ∈ moved,
                      mixin.id? ∉ ids (after.store.resolve other).children) := by
  have hcomposed : ∃ found ∈ resultAfter? (compose plainLayout mixinsPage "views/page.jade" {}),
      found.1.layout.isSome = true ∧ found.2.mixins.keys = ["item", "note"]
        ∧ ∀ entry ∈ found.2.store.current.entries,
          ∀ inner ∈ entry.2.nodes.flatMap blockIds, inner < entry.1 := by
    decide +kernel
  obtain ⟨⟨composed, after⟩, hfound, hlayout, hkeys, hrank⟩ := hcomposed
  have hrun := resultAfter?_eq_some hfound
  exact ⟨composed, after, hrun, hkeys, definition_placedOnce_iff hrun hlayout given_empty
    (listed_of_empty rfl) (untangled_of_rank id hrank _)⟩

/-- A page that defines a mixin inside of another one, whose name is in the table already. -/
def nestedPage : String :=
  "extends layout\nmixin outer\n  p\nmixin outer\n  mixin inner\n    p\n"

/-- A layout without blocks. -/
def bareLayout : Config :=
  { loader := some (.ofTemplates [("views/layout.jade", "h1\n")]) }

/-- **A definition that is moved twice**: the inner one stands in the outer one, which is moved, and
    is moved behind it once more. -/
theorem definition_repeats_nested :
    ∃ composed after, compose bareLayout nestedPage "views/page.jade" {} = .ok composed after
      ∧ after.mixins.keys = ["outer", "inner"]
      ∧ after.mixins.values.map
          (fun mixin => (identities (after.store.resolve (.ofBlock composed.root))).count mixin.id?)
        = [1, 2] := by
  have hcomposed : ∃ found ∈ resultAfter? (compose bareLayout nestedPage "views/page.jade" {}),
      found.2.mixins.keys = ["outer", "inner"]
        ∧ found.2.mixins.values.map (fun mixin =>
            (identities (found.2.store.resolve (.ofBlock found.1.root))).count mixin.id?)
          = [1, 2] := by
    decide +kernel
  obtain ⟨⟨composed, after⟩, hfound, hcounts⟩ := hcomposed
  exact ⟨composed, after, resultAfter?_eq_some hfound, hcounts⟩

end Placement

end Stencil
