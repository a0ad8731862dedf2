import Mathlib.Data.List.Nodup
import Stencil.Node.IncludePoint
import Stencil.Proofs.Node.Blocks

/-! # Markers — which `yield` marker a search comes to

    The first marker of a tree is the one that stands first in document order
    outside raw text (`Block.firstMark?`).  The search for the place of included
    content has a way of its own: it goes down into blocks, and of other nodes
    into the body alone, if that has contents (`into?`).  So it comes to some
    markers (`ComesTo`) and passes by others: those in inline code, and in the
    block of a loop for an empty source.

    `stops` lists the markers that the search comes to, in its order, and leaves
    aside which blocks were entered before.  In a tree no block is met twice, so
    the search ends at the first of them (`searchNodes_searched`).  That is the
    first marker of the tree exactly when the search comes to that one, and to
    none that stands before it (`includePoint_eq_firstMark_iff`). -/

namespace Stencil

namespace Node

variable {ι : Type}

/-! ## Markers in document order -/

/-- The marker that a node is. -/
def mark? (node : Node ι) : Option (Block ι (Node ι)) := node.block?.filter (·.props.isYield)

mutual

/-- A node and those below it in document order, but for what is below a node of raw text. -/
def markup : Node ι → List (Node ι)
  | make own line kind children =>
      make own line kind children :: if kind.isTextOnly then [] else markupAll children

/-- The nodes of a list and those below them, but for what is below a node of raw text. -/
def markupAll : List (Node ι) → List (Node ι)
  | [] => []
  | node :: nodes => markup node ++ markupAll nodes

end

/-- The blocks among the nodes of a list and below them, in document order. -/
def blocksIn (nodes : List (Node ι)) : List (Block ι (Node ι)) :=
  (preorderAll nodes).filterMap block?

end Node

open Node

variable {ι : Type}

/-- The first marker below a block outside raw text. -/
def Block.firstMark? (root : Block ι (Node ι)) : Option (Block ι (Node ι)) :=
  (markupAll root.nodes).findSome? mark?

/-- Every block stands in one place. -/
def Block.IsTree (root : Block ι (Node ι)) : Prop :=
  ((blocksIn [.ofBlock root]).map Block.id).Nodup

/-- Below a block, one block stands before another in document order. -/
def Block.HasBefore (root first second : Block ι (Node ι)) : Prop :=
  [first, second].Sublist (blocksIn root.nodes)

namespace Node

/-! ## The way of the search -/

/-- The block that the search goes down into at a node: a block that is no marker, or a body with
    contents; never into raw text. -/
def into? (node : Node ι) : Option (Block ι (Node ι)) :=
  if node.kind.isTextOnly then none
  else match node.block? with
    | some block => if block.props.isYield then none else some block
    | none => node.blocks.head?.filter fun body => !body.nodes.isEmpty

/-- Whether the search ends at a node or goes down into it. -/
def leadsOn (node : Node ι) : Bool := node.mark?.isSome || node.into?.isSome

/-- Going through some nodes, the search comes to a marker. -/
inductive ComesTo : List (Node ι) → Block ι (Node ι) → Prop
  /-- A marker among the nodes. -/
  | mark {nodes : List (Node ι)} {node : Node ι} {mark : Block ι (Node ι)} (hnode : node ∈ nodes)
      (hmark : node.mark? = some mark) : ComesTo nodes mark
  /-- A marker in a block that the search goes down into. -/
  | down {nodes : List (Node ι)} {node : Node ι} {block mark : Block ι (Node ι)}
      (hnode : node ∈ nodes) (hinto : node.into? = some block)
      (hrest : ComesTo block.nodes mark) : ComesTo nodes mark
  /-- A body that is a marker itself, and where the search goes no further. -/
  | body {nodes : List (Node ι)} {node : Node ι} {mark : Block ι (Node ι)} (hnode : node ∈ nodes)
      (hinto : node.into? = some mark) (hmark : mark.props.isYield)
      (hlast : ∀ inner ∈ mark.nodes, inner.leadsOn = false) : ComesTo nodes mark

mutual

/-- The markers that the search comes to at a node, in its order. -/
def stops : Node ι → List (Block ι (Node ι))
  | make _ line kind children =>
      match kind with
      | .block id props =>
          if props.isYield then [⟨id, line, props, children⟩]
          else if props.textOnly then []
          else stopsAll children
      | kind => if kind.isTextOnly then [] else stopsBody children

/-- The markers that the search comes to in the first block of a list. -/
def stopsBody : List (Node ι) → List (Block ι (Node ι))
  | [] => []
  | make _ line (.block id props) nodes :: _ =>
      if nodes.isEmpty then []
      else if props.isYield && !nodes.any leadsOn then [⟨id, line, props, nodes⟩]
      else stopsAll nodes
  | _ :: rest => stopsBody rest

/-- The markers that the search comes to, going through the nodes of a list. -/
def stopsAll : List (Node ι) → List (Block ι (Node ι))
  | [] => []
  | node :: nodes => stops node ++ stopsAll nodes

end

/-! ## One node of the way -/

section Step

variable {node : Node ι} {block mark : Block ι (Node ι)}

theorem mark?_eq_some : node.mark? = some mark ↔ node.block? = some mark ∧ mark.props.isYield := by
  rw [mark?, Option.filter_eq_some_iff]

variable [DecidableEq ι]

/-- What happens at a node: the search ends, or passes by, or goes down into a block unless it has
    entered that before. -/
inductive Way (node : Node ι) : Prop
  | ends {mark : Block ι (Node ι)} (hmark : node.mark? = some mark) (hinto : node.into? = none)
      (hstops : node.stops = [mark])
      (hsearch : ∀ entered, searchNode entered node = some ⟨mark, entered⟩)
  | passes (hmark : node.mark? = none) (hinto : node.into? = none) (hstops : node.stops = [])
      (hsearch : ∀ entered : List ι, searchNode entered node = none)
  | enters {block : Block ι (Node ι)} (hmark : node.mark? = none) (hinto : node.into? = some block)
      (hstops : node.stops
        = if block.props.isYield && !block.nodes.any leadsOn then [block] else stopsAll block.nodes)
      (hsearch : ∀ entered, searchNode entered node
        = if block.id ∈ entered then none
          else some (searchNodes (.entering entered block) block.nodes))

/-- The first block among the children of a node, if it has contents. -/
theorem searchBody_cases (children : List (Node ι)) :
    ((children.filterMap block?).head?.filter (fun body => !body.nodes.isEmpty) = none
        ∧ stopsBody children = [] ∧ ∀ entered : List ι, searchBody entered children = none)
      ∨ ∃ body,
        (children.filterMap block?).head?.filter (fun body => !body.nodes.isEmpty) = some body
        ∧ stopsBody children = (if body.props.isYield && !body.nodes.any leadsOn then [body]
          else stopsAll body.nodes)
        ∧ ∀ entered, searchBody entered children
          = if body.id ∈ entered then none
            else some (searchNodes (.entering entered body) body.nodes) := by
  induction children with
  | nil => exact .inl ⟨rfl, rfl, fun _ => rfl⟩
  | cons child children ih =>
      obtain ⟨own, line, kind, nodes⟩ := child
      cases kind with
      | block id props =>
          cases hnodes : nodes.isEmpty with
          | true =>
              refine .inl ⟨?_, ?_, fun entered => ?_⟩
              · simp [block?, List.isEmpty_iff.mp hnodes]
              · simp [stopsBody, hnodes]
              · simp [searchBody, hnodes]
          | false =>
              refine .inr ⟨⟨id, line, props, nodes⟩, ?_, ?_, fun entered => ?_⟩
              · simp [block?, hnodes]
              · simp [stopsBody, hnodes]
              · simp [searchBody, hnodes]
      | _ => exact ih

/-- A node that is no block. -/
theorem way_of_ne_block {own : Option ι} {line : Int} {kind : Kind ι} {children : List (Node ι)}
    (hkind : ∀ id props, kind ≠ .block id props) : Way (make own line kind children) := by
  have hblock : (make own line kind children).block? = none := by
    cases kind with
    | block id props => exact absurd rfl (hkind id props)
    | _ => rfl
  have hmark : (make own line kind children).mark? = none := by rw [mark?, hblock]; rfl
  have hinto : (make own line kind children).into? = if kind.isTextOnly then none
      else (children.filterMap block?).head?.filter fun body => !body.nodes.isEmpty := by
    rw [into?, hblock]
    rfl
  have hstops : (make own line kind children).stops
      = if kind.isTextOnly then [] else stopsBody children := by
    cases kind with
    | block id props => exact absurd rfl (hkind id props)
    | _ => simp only [stops]
  have hsearch : ∀ entered : List ι, searchNode entered (make own line kind children)
      = if kind.isTextOnly then none else searchBody entered children := by
    cases kind with
    | block id props => exact absurd rfl (hkind id props)
    | _ => exact fun entered => by simp only [searchNode]
  cases htext : kind.isTextOnly with
  | true =>
      rw [htext, if_pos rfl] at hinto hstops
      exact .passes hmark hinto hstops fun entered => by rw [hsearch, htext, if_pos rfl]
  | false =>
      rw [htext, if_neg Bool.false_ne_true] at hinto hstops
      rcases searchBody_cases children with ⟨hnone, hbody, hpasses⟩ | ⟨body, hsome, hbody, henters⟩
      · refine .passes hmark (hinto.trans hnone) (hstops.trans hbody) fun entered => ?_
        rw [hsearch, htext, if_neg Bool.false_ne_true, hpasses]
      · refine .enters hmark (hinto.trans hsome) (hstops.trans hbody) fun entered => ?_
        rw [hsearch, htext, if_neg Bool.false_ne_true, henters]

theorem way (node : Node ι) : Way node := by
  obtain ⟨own, line, kind, children⟩ := node
  cases kind with
  | block id props =>
      cases hyield : props.isYield with
      | true =>
          refine .ends (mark?_eq_some.mpr ⟨rfl, hyield⟩) ?_ ?_ fun entered => ?_
          · simp [into?, block?, hyield]
          · simp [stops, hyield]
          · simp [searchNode, hyield]
      | false =>
          have hmark : (make own line (.block id props) children).mark? = none := by
            simp [mark?, block?, Option.filter, hyield]
          cases htext : props.textOnly with
          | true =>
              refine .passes hmark (if_pos htext) ?_ fun entered => ?_
              · simp [stops, hyield, htext]
              · simp [searchNode, hyield, htext]
          | false =>
              have hinto : (make own line (.block id props) children).into?
                  = some ⟨id, line, props, children⟩ := by
                simp [into?, Node.kind, Kind.isTextOnly, block?, hyield, htext]
              refine .enters hmark hinto ?_ fun entered => ?_
              · simp [stops, hyield, htext]
              · simp [searchNode, hyield, htext]
  | _ => exact way_of_ne_block fun _ _ h => by cases h

end Step

/-! ## What stands below -/

section Below

variable {node : Node ι} {nodes : List (Node ι)} {block mark : Block ι (Node ι)}

theorem blocksIn_cons (node : Node ι) (nodes : List (Node ι)) :
    blocksIn (node :: nodes) = blocksIn [node] ++ blocksIn nodes := by
  rw [blocksIn, preorderAll, List.filterMap_append, blocksIn, preorderAll, preorderAll,
    List.append_nil, blocksIn]

/-- A node that is a block stands before the blocks in it. -/
theorem blocksIn_of_block (h : node.block? = some block) :
    blocksIn [node] = block :: blocksIn block.nodes := by
  obtain ⟨own, line, kind, children⟩ := node
  cases kind with
  | block id props =>
      cases h
      rw [blocksIn, preorderAll, preorderAll, List.append_nil, preorder_eq]
      rfl
  | _ => cases h

/-- The blocks among the children stand below a node, with what is in them. -/
theorem sublist_of_mem_blocks (h : block ∈ node.blocks) :
    (block :: blocksIn block.nodes).Sublist (blocksIn [node]) := by
  obtain ⟨child, hchild, hblock⟩ := List.mem_filterMap.mp h
  have hbelow : child.preorder.Sublist (preorderAll node.children) := by
    rw [preorderAll_eq_flatMap, List.flatMap_def]
    exact List.sublist_flatten_of_mem (List.mem_map_of_mem hchild)
  rw [← blocksIn_of_block hblock]
  refine List.Sublist.filterMap _ ?_
  rw [preorderAll, preorderAll, preorderAll, preorderAll, List.append_nil, List.append_nil,
    preorder_eq node]
  exact hbelow.cons _

/-- So does the block that the search goes down into. -/
theorem sublist_of_into (h : node.into? = some block) :
    (block :: blocksIn block.nodes).Sublist (blocksIn [node]) := by
  rw [into?] at h
  split at h
  · exact nomatch h
  · split at h
    · next inner hinner =>
        split at h
        · exact nomatch h
        · cases h
          rw [blocksIn_of_block hinner]
    · exact sublist_of_mem_blocks (List.mem_of_mem_head? (Option.eq_some_of_filter_eq_some h))

/-- A property of lists of nodes holds of every list when it passes up from the blocks that the
    search goes down into. -/
theorem induct_into {P : List (Node ι) → Prop} (h : ∀ nodes : List (Node ι),
    (∀ node ∈ nodes, ∀ block, node.into? = some block → P block.nodes) → P nodes)
    (nodes : List (Node ι)) : P nodes := by
  induction hlength : (blocksIn nodes).length using Nat.strongRecOn generalizing nodes with
  | ind count ih =>
      refine h nodes fun node hnode block hinto => ih _ ?_ block.nodes rfl
      obtain ⟨before, after, rfl⟩ := List.append_of_mem hnode
      have hshorter := (sublist_of_into hinto).length_le
      have hcount : (blocksIn [node]).length ≤ (blocksIn (before ++ node :: after)).length := by
        refine (List.Sublist.filterMap block? ?_).length_le
        rw [preorderAll_append, preorderAll, preorderAll, preorderAll, List.append_nil]
        exact (List.sublist_append_left _ _).trans (List.sublist_append_right _ _)
      rw [List.length_cons] at hshorter
      omega

theorem leadsOn_eq_false : node.leadsOn = false ↔ node.mark? = none ∧ node.into? = none := by
  rw [leadsOn, Bool.or_eq_false_iff, Option.isSome_eq_false_iff, Option.isSome_eq_false_iff,
    Option.isNone_iff_eq_none, Option.isNone_iff_eq_none]

end Below

/-! ## The markers that the search comes to -/

section Stops

variable {node : Node ι} {nodes : List (Node ι)} {block mark : Block ι (Node ι)}

theorem stopsAll_eq_flatMap (nodes : List (Node ι)) : stopsAll nodes = nodes.flatMap stops := by
  induction nodes with
  | nil => rfl
  | cons node nodes ih => rw [stopsAll, ih, List.flatMap_cons]

theorem ComesTo.isYield (h : ComesTo nodes mark) : mark.props.isYield := by
  induction h with
  | mark _ hmark => exact (mark?_eq_some.mp hmark).2
  | down _ _ _ ih => exact ih
  | body _ _ hmark _ => exact hmark

variable [DecidableEq ι]

theorem stops_of_mark (h : node.mark? = some mark) : node.stops = [mark] := by
  cases way node with
  | ends hmark _ hstops => rw [hstops, Option.some.inj (hmark.symm.trans h)]
  | passes hmark => exact nomatch hmark.symm.trans h
  | enters hmark => exact nomatch hmark.symm.trans h

theorem stops_of_into (h : node.into? = some block) :
    node.stops = if block.props.isYield && !block.nodes.any leadsOn then [block]
      else stopsAll block.nodes := by
  cases way node with
  | ends _ hinto => exact nomatch hinto.symm.trans h
  | passes _ hinto => exact nomatch hinto.symm.trans h
  | enters _ hinto hstops => rw [hstops, Option.some.inj (hinto.symm.trans h)]

theorem stops_of_last (h : node.leadsOn = false) : node.stops = [] := by
  obtain ⟨hmark, hinto⟩ := leadsOn_eq_false.mp h
  cases way node with
  | ends hmark' => exact nomatch hmark.symm.trans hmark'
  | passes _ _ hstops => exact hstops
  | enters _ hinto' => exact nomatch hinto.symm.trans hinto'

/-- **The list has the markers that the search comes to.** -/
theorem mem_stopsAll (nodes : List (Node ι)) : mark ∈ stopsAll nodes ↔ ComesTo nodes mark := by
  induction nodes using induct_into with
  | h nodes ih =>
      rw [stopsAll_eq_flatMap, List.mem_flatMap]
      constructor
      · rintro ⟨node, hnode, hmem⟩
        cases way node with
        | ends hmark _ hstops =>
            obtain rfl := List.mem_singleton.mp (hstops ▸ hmem)
            exact .mark hnode hmark
        | passes _ _ hstops =>
            rw [hstops] at hmem
            exact nomatch hmem
        | enters _ hinto hstops =>
            rw [hstops] at hmem
            split at hmem
            · next hends =>
                obtain rfl := List.mem_singleton.mp hmem
                obtain ⟨hyield, hlast⟩ : _ ∧ ∀ inner ∈ _, _ := by simpa using hends
                exact .body hnode hinto hyield hlast
            · exact .down hnode hinto ((ih node hnode _ hinto).mp hmem)
      · intro h
        cases h with
        | mark hnode hmark =>
            exact ⟨_, hnode, stops_of_mark hmark ▸ List.mem_singleton_self _⟩
        | @down _ node block _ hnode hinto hrest =>
            have hmem := (ih node hnode block hinto).mpr hrest
            refine ⟨node, hnode, ?_⟩
            rw [stops_of_into hinto]
            split
            · next hends =>
                -- nothing is found where the search goes no further
                obtain ⟨-, hlast⟩ : _ ∧ ∀ inner ∈ block.nodes, _ := by simpa using hends
                rw [stopsAll_eq_flatMap, List.flatMap_eq_nil_iff.mpr fun inner hinner =>
                  stops_of_last (hlast inner hinner)] at hmem
                exact nomatch hmem
            · exact hmem
        | @body _ node mark hnode hinto hmark hlast =>
            have hends : (mark.props.isYield && !mark.nodes.any leadsOn) = true := by
              simpa [hmark] using hlast
            refine ⟨node, hnode, ?_⟩
            rw [stops_of_into hinto, if_pos hends]
            exact List.mem_singleton_self mark

/-- Markers are come to in document order. -/
theorem stopsAll_sublist (nodes : List (Node ι)) : (stopsAll nodes).Sublist (blocksIn nodes) := by
  induction nodes using induct_into with
  | h nodes ih =>
      induction nodes with
      | nil => exact List.Sublist.refl _
      | cons node nodes ihRest =>
          rw [stopsAll, blocksIn_cons]
          refine List.Sublist.append ?_ (ihRest fun other hother => ih other (.tail _ hother))
          cases way node with
          | ends hmark _ hstops =>
              rw [hstops, blocksIn_of_block (mark?_eq_some.mp hmark).1]
              exact List.Sublist.cons_cons _ (List.nil_sublist _)
          | passes _ _ hstops =>
              rw [hstops]
              exact List.nil_sublist _
          | enters _ hinto hstops =>
              rw [hstops]
              refine .trans ?_ (sublist_of_into hinto)
              split
              · exact List.Sublist.cons_cons _ (List.nil_sublist _)
              · exact (ih node (.head _) _ hinto).cons _

theorem isYield_of_mem_stops (h : mark ∈ node.stops) : mark.props.isYield := by
  have hcomes : ComesTo [node] mark := by
    rw [← mem_stopsAll, stopsAll, stopsAll, List.append_nil]
    exact h
  exact hcomes.isYield

end Stops

/-! ## The search -/

section Search

variable {node : Node ι} {nodes : List (Node ι)} {block mark : Block ι (Node ι)}

/-- What a search through some nodes has come to, when none of the blocks in them had been entered:
    the first marker on its way; else a block that is none, or the one that it started from when
    nothing led on. -/
structure Searched (start : Found ι) (nodes : List (Node ι)) (found : Found ι) : Prop where
  first : ∀ mark ∈ (stopsAll nodes).head?, found.block = mark
  others : stopsAll nodes = [] →
    if nodes.any leadsOn then found.block.props.isYield = false else found.block = start.block
  entered : stopsAll nodes = [] →
    ∀ id ∈ found.entered, id ∈ start.entered ∨ id ∈ (blocksIn nodes).map Block.id

/-- A search that has come to a marker at the first node. -/
theorem Searched.of_found {start found : Found ι} {marks : List (Block ι (Node ι))}
    (hstops : node.stops = mark :: marks) (hfound : found.block = mark) :
    Searched start (node :: nodes) found := by
  have hall : stopsAll (node :: nodes) = mark :: (marks ++ stopsAll nodes) := by
    rw [stopsAll, hstops, List.cons_append]
  refine ⟨?_, ?_, ?_⟩ <;> rw [hall]
  · rintro _ ⟨⟩
    exact hfound
  · exact nofun
  · exact nofun

/-- A search that has passed by the first node. -/
theorem Searched.of_passed {start found : Found ι} (hstops : node.stops = [])
    (hlast : node.leadsOn = false) (h : Searched start nodes found) :
    Searched start (node :: nodes) found := by
  have hall : stopsAll (node :: nodes) = stopsAll nodes := by
    rw [stopsAll, hstops, List.nil_append]
  refine ⟨?_, ?_, ?_⟩ <;> rw [hall]
  · exact h.first
  · rw [List.any_cons, hlast, Bool.false_or]
    exact h.others
  · intro hnone id hid
    rw [blocksIn_cons, List.map_append]
    exact (h.entered hnone id hid).imp_right (List.mem_append_right _)

/-- A search that goes on from what it has come to at the first node, which is no marker. -/
theorem Searched.of_entered {start next found : Found ι} (hstops : node.stops = [])
    (hlead : node.leadsOn) (hnext : next.block.props.isYield = false)
    (hinside : ∀ id ∈ next.entered, id ∈ start.entered ∨ id ∈ (blocksIn [node]).map Block.id)
    (h : Searched next nodes found) : Searched start (node :: nodes) found := by
  have hall : stopsAll (node :: nodes) = stopsAll nodes := by
    rw [stopsAll, hstops, List.nil_append]
  refine ⟨?_, ?_, ?_⟩ <;> rw [hall]
  · exact h.first
  · intro hnone
    rw [List.any_cons, hlead, Bool.true_or, if_pos rfl]
    have hothers := h.others hnone
    split at hothers
    · exact hothers
    · exact hothers ▸ hnext
  · intro hnone id hid
    rw [blocksIn_cons, List.map_append]
    rcases h.entered hnone id hid with hid | hid
    · exact (hinside id hid).imp_right (List.mem_append_left _)
    · exact .inr (List.mem_append_right _ hid)

variable [DecidableEq ι]

/-- A search that has gone down into a block: whether it ends there. -/
theorem Searched.ends {start found : Found ι} (hinto : node.into? = some block)
    (hstart : start.block = block) (h : Searched start block.nodes found) :
    (∀ mark ∈ node.stops.head?, found.block = mark)
      ∧ (node.stops = [] → found.block.props.isYield = false) := by
  have hstops := stops_of_into hinto
  cases hlast : block.nodes.any leadsOn with
  | false =>
      have hnone : stopsAll block.nodes = [] := by
        rw [stopsAll_eq_flatMap, List.flatMap_eq_nil_iff]
        exact fun inner hinner => stops_of_last (by simpa using List.any_eq_false.mp hlast _ hinner)
      have hfound : found.block = block := by
        have hothers := h.others hnone
        rwa [hlast, if_neg Bool.false_ne_true, hstart] at hothers
      cases hyield : block.props.isYield with
      | true =>
          rw [hlast, hyield, Bool.not_false, Bool.and_true, if_pos rfl] at hstops
          rw [hstops, hfound]
          exact ⟨fun mark hmark => Option.some.inj hmark, nofun⟩
      | false =>
          rw [hlast, hyield, Bool.false_and, if_neg Bool.false_ne_true, hnone] at hstops
          rw [hstops, hfound]
          exact ⟨nofun, fun _ => hyield⟩
  | true =>
      rw [hlast, Bool.not_true, Bool.and_false, if_neg Bool.false_ne_true] at hstops
      rw [hstops]
      refine ⟨h.first, fun hnone => ?_⟩
      have hothers := h.others hnone
      rwa [hlast, if_pos rfl] at hothers

/-- **In a tree the search ends at the first marker that it comes to.** -/
theorem searchNodes_searched (nodes : List (Node ι)) : ∀ start : Found ι,
    ((blocksIn nodes).map Block.id).Nodup →
    (∀ id ∈ start.entered, id ∉ (blocksIn nodes).map Block.id) →
    Searched start nodes (searchNodes start nodes) := by
  induction nodes using induct_into with
  | h nodes ih =>
      induction nodes with
      | nil => exact fun start _ _ => ⟨nofun, fun _ => rfl, fun _ id hid => .inl hid⟩
      | cons node nodes ihRest =>
          intro start hnodup hnew
          replace ihRest := ihRest fun other hother => ih other (.tail _ hother)
          rw [blocksIn_cons, List.map_append] at hnodup hnew
          obtain ⟨hnode, hrest, hapart⟩ := List.nodup_append.mp hnodup
          cases way node with
          | @ends mark hmark _ hstops hsearch =>
              have hsearched : searchNodes start (node :: nodes) = ⟨mark, start.entered⟩ := by
                rw [searchNodes, hsearch]
                exact if_pos (mark?_eq_some.mp hmark).2
              exact .of_found hstops (by rw [hsearched])
          | passes hmark hinto hstops hsearch =>
              have hsearched : searchNodes start (node :: nodes) = searchNodes start nodes := by
                rw [searchNodes, hsearch]
              rw [hsearched]
              exact .of_passed hstops (leadsOn_eq_false.mpr ⟨hmark, hinto⟩) <| ihRest start hrest
                fun id hid hmem => hnew id hid (List.mem_append_right _ hmem)
          | @enters block hmark hinto _ hsearch =>
              have hbelow := (sublist_of_into hinto).map Block.id
              have hid : block.id ∈ (blocksIn [node]).map Block.id := hbelow.subset (.head _)
              obtain ⟨hself, hinner⟩ := List.nodup_cons.mp (hnode.sublist hbelow)
              have h : Searched _ block.nodes _ :=
                ih node (.head _) block hinto (.entering start.entered block) hinner
                  (List.forall_mem_cons.mpr ⟨hself, fun id hid hmem =>
                    hnew id hid (List.mem_append_left _ (hbelow.subset (.tail _ hmem)))⟩)
              have hsearched := (hsearch start.entered).trans <| if_neg fun hentered =>
                hnew _ hentered (List.mem_append_left _ hid)
              obtain ⟨hfirst, hother⟩ := h.ends hinto rfl
              generalize searchNodes (.entering start.entered block) block.nodes = next
                at h hfirst hother hsearched
              cases hstops : node.stops with
              | cons mark marks =>
                  have hfound : next.block = mark := hfirst mark (by rw [hstops]; rfl)
                  have hmem : mark ∈ node.stops := hstops ▸ .head _
                  have hends : searchNodes start (node :: nodes) = next := by
                    rw [searchNodes, hsearched]
                    exact if_pos (hfound ▸ isYield_of_mem_stops hmem)
                  rw [hends]
                  exact .of_found hstops hfound
              | nil =>
                  have hnone : stopsAll block.nodes = [] := by
                    have hempty := stops_of_into hinto
                    rw [hstops] at hempty
                    split at hempty
                    · exact nomatch hempty
                    · exact hempty.symm
                  have hinside : ∀ id ∈ next.entered,
                      id ∈ start.entered ∨ id ∈ (blocksIn [node]).map Block.id := fun id hmem => by
                    rcases h.entered hnone id hmem with hentered | hmem
                    · exact (List.mem_cons.mp hentered).elim (fun heq => .inr (heq ▸ hid)) .inl
                    · exact .inr (hbelow.subset (.tail _ hmem))
                  have hgoes : searchNodes start (node :: nodes) = searchNodes next nodes := by
                    rw [searchNodes, hsearched]
                    exact if_neg (Bool.eq_false_iff.mp (hother hstops))
                  have hlead : node.leadsOn := by
                    rw [leadsOn, hinto]
                    exact Bool.or_true _
                  rw [hgoes]
                  refine .of_entered hstops hlead (hother hstops) hinside (ihRest next hrest ?_)
                  exact fun id hid hmem => (hinside id hid).elim
                    (fun hentered => hnew id hentered (List.mem_append_right _ hmem))
                    fun hbefore => hapart id hbefore id hmem rfl

end Search

end Node

/-! ## The first marker -/

section First

variable {root mark other : Block ι (Node ι)}

/-- In a tree the root and the blocks below it have identities of their own. -/
theorem Block.IsTree.nodup (htree : root.IsTree) :
    root.id ∉ (blocksIn root.nodes).map Block.id ∧ ((blocksIn root.nodes).map Block.id).Nodup := by
  have hroot : (Node.ofBlock root).block? = some root := rfl
  rw [Block.IsTree, blocksIn_of_block hroot] at htree
  exact List.nodup_cons.mp htree

/-- Of two blocks of a list without repetitions only one stands before the other. -/
theorem not_sublist_swap {α : Type} {items : List α} {first second : α} (hnodup : items.Nodup)
    (h : [first, second].Sublist items) : ¬ [second, first].Sublist items := by
  induction items with
  | nil => exact nomatch h
  | cons item items ih =>
      obtain ⟨hnew, hrest⟩ := List.nodup_cons.mp hnodup
      intro hswap
      cases h with
      | cons _ h =>
          cases hswap with
          | cons _ hswap => exact ih hrest h hswap
          | cons_cons _ hswap => exact hnew (h.subset (by simp))
      | cons_cons _ h =>
          cases hswap with
          | cons _ hswap => exact hnew (hswap.subset (by simp))
          | cons_cons _ hswap => exact hnew (h.subset (by simp))

theorem markupAll_eq_flatMap (nodes : List (Node ι)) : markupAll nodes = nodes.flatMap markup := by
  induction nodes with
  | nil => rfl
  | cons node nodes ih => rw [markupAll, ih, List.flatMap_cons]

theorem markup_sublist (node : Node ι) : node.markup.Sublist node.preorder := by
  induction node using Node.induct with
  | h own line kind children ih =>
      rw [markup, preorder]
      refine .cons_cons _ ?_
      split
      · exact List.nil_sublist _
      · induction children with
        | nil => exact .refl _
        | cons child children ihRest =>
            exact (ih child (.head _)).append (ihRest fun other hother => ih other (.tail _ hother))

/-- The first marker is a marker below the root. -/
theorem Block.firstMark?_eq_some (hfirst : root.firstMark? = some mark) :
    mark ∈ blocksIn root.nodes ∧ mark.props.isYield := by
  obtain ⟨node, hnode, hmark⟩ := List.exists_of_findSome?_eq_some hfirst
  obtain ⟨hblock, hyield⟩ := mark?_eq_some.mp hmark
  rw [markupAll_eq_flatMap] at hnode
  obtain ⟨top, htop, hbelow⟩ := List.mem_flatMap.mp hnode
  have hnode := mem_preorderAll htop ((markup_sublist top).subset hbelow)
  exact ⟨List.mem_filterMap.mpr ⟨node, hnode, hblock⟩, hyield⟩

variable [DecidableEq ι]

theorem includePoint_searched (htree : root.IsTree) :
    Searched (.entering [] root) root.nodes
      (searchNodes (.entering [] root) root.nodes) := by
  obtain ⟨hroot, hnodup⟩ := htree.nodup
  refine searchNodes_searched root.nodes _ hnodup ?_
  exact List.forall_mem_singleton.mpr hroot

/-- **In a tree included content goes to a marker exactly when the search comes to it, and to none
    that stands before it.** -/
theorem includePoint_eq_iff (htree : root.IsTree) (hmem : mark ∈ blocksIn root.nodes)
    (hmark : mark.props.isYield) :
    includePoint root = mark
      ↔ ComesTo root.nodes mark
        ∧ ∀ other, ComesTo root.nodes other → ¬ root.HasBefore other mark := by
  obtain ⟨hroot, hnodup⟩ := htree.nodup
  have hsearched := includePoint_searched htree
  have hbelow := stopsAll_sublist root.nodes
  cases hstops : stopsAll root.nodes with
  | nil =>
      have hnone : ¬ ComesTo root.nodes mark := by
        rw [← mem_stopsAll, hstops]
        exact nofun
      refine iff_of_false ?_ fun h => hnone h.1
      intro heq
      have hothers := hsearched.others hstops
      split at hothers
      · rw [includePoint] at heq
        exact Bool.false_ne_true (hothers.symm.trans (heq ▸ hmark))
      · have hself : root = mark := hothers.symm.trans heq
        exact hroot (List.mem_map_of_mem (hself ▸ hmem))
  | cons first marks =>
      have hfirst : includePoint root = first := hsearched.first first (by rw [hstops]; rfl)
      rw [hstops] at hbelow
      rw [hfirst]
      constructor
      · rintro rfl
        refine ⟨(mem_stopsAll _).mp (hstops ▸ .head _), fun other hother hbefore => ?_⟩
        rw [← mem_stopsAll, hstops] at hother
        refine not_sublist_swap hnodup.of_map hbefore ?_
        rcases List.mem_cons.mp hother with rfl | hother
        · exact hbefore
        · exact .trans (.cons_cons _ (List.singleton_sublist.mpr hother)) hbelow
      · rintro ⟨hcomes, hnone⟩
        rw [← mem_stopsAll, hstops] at hcomes
        rcases List.mem_cons.mp hcomes with heq | hmem
        · exact heq.symm
        · refine absurd ?_ (hnone first ((mem_stopsAll _).mp (hstops ▸ .head _)))
          exact .trans (.cons_cons _ (List.singleton_sublist.mpr hmem)) hbelow

/-- **Included content goes to the first marker of a tree exactly when the search comes to it, and
    to none that stands before it.** -/
theorem includePoint_eq_firstMark_iff (htree : root.IsTree)
    (hfirst : root.firstMark? = some mark) :
    includePoint root = mark
      ↔ ComesTo root.nodes mark ∧ ∀ other, ComesTo root.nodes other → ¬ root.HasBefore other mark :=
  includePoint_eq_iff htree (Block.firstMark?_eq_some hfirst).1 (Block.firstMark?_eq_some hfirst).2

/-- A tag with a marker in its body. -/
def wrapped : Block Nat (Node Nat) :=
  { id := 0
    nodes := [.mk 1 (.tag { name := "div" } false) [.ofBlock
      { id := 1, line := 1, nodes := [.ofBlock { id := 2, line := 2, props.isYield := true }] }]] }

/-- The search comes to that marker, and to no other one, and takes it. -/
theorem includePoint_eq_firstMark_wrapped :
    wrapped.IsTree ∧ wrapped.firstMark? = some { id := 2, line := 2, props.isYield := true }
      ∧ (ComesTo wrapped.nodes { id := 2, line := 2, props.isYield := true }
        ∧ ∀ other, ComesTo wrapped.nodes other
          → ¬ wrapped.HasBefore other { id := 2, line := 2, props.isYield := true })
      ∧ includePoint wrapped = { id := 2, line := 2, props.isYield := true } := by
  have htree : wrapped.IsTree := by unfold Block.IsTree; decide
  have hfirst : wrapped.firstMark? = some { id := 2, line := 2, props.isYield := true } := by decide
  have honly : stopsAll wrapped.nodes = [{ id := 2, line := 2, props.isYield := true }] := by decide
  have hreached : ComesTo wrapped.nodes { id := 2, line := 2, props.isYield := true }
      ∧ ∀ other, ComesTo wrapped.nodes other
        → ¬ wrapped.HasBefore other { id := 2, line := 2, props.isYield := true } := by
    refine ⟨(mem_stopsAll _).mp (honly ▸ .head _), fun other hother => ?_⟩
    rw [← mem_stopsAll, honly, List.mem_singleton] at hother
    rw [hother, Block.HasBefore]
    decide
  exact ⟨htree, hfirst, hreached, (includePoint_eq_firstMark_iff htree hfirst).mpr hreached⟩

/-- A loop that has its only marker in the block for an empty source. -/
def emptyLoop : Block Nat (Node Nat) :=
  { id := 0
    nodes := [.mk 1 (.each "xs" "v" "") [
      .ofBlock { id := 1, line := 2, nodes := [.mk 2 (.tag { name := "p" } false) []] },
      .ofBlock {
        id := 2, line := 4
        nodes := [.ofBlock { id := 3, line := 4, props.isYield := true }] }]] }

/-- The search passes that marker by. -/
theorem includePoint_emptyLoop :
    emptyLoop.IsTree ∧ emptyLoop.firstMark? = some { id := 3, line := 4, props.isYield := true }
      ∧ includePoint emptyLoop
        = { id := 1, line := 2, nodes := [.mk 2 (.tag { name := "p" } false) []] } := by
  refine ⟨by unfold Block.IsTree; decide, by decide, by decide⟩

end First
end Stencil
