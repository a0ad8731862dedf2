import Stencil.Proofs.Node.Markers

/-! # Tours — the search where blocks stand in several places

    A named block that is mentioned twice stands in two places of one tree, and
    the search enters it once.  `tourAll` lists the markers that it would come to
    if it did not end at the first: a tour enters every block once.  In any tree
    the search ends at the first marker of the tour (`searchNodes_toured`).

    In a coherent tree a block is the same in all its places
    (`Block.Coherent`), so what was not found in one place is not there in the
    next.  There the first marker of the tour is the first one on the way
    (`head?_tourAll`), as if a block were entered wherever it stands.

    The search does not ask whether a marker is still open.  So included content
    goes to the first open marker of a tree, and to none that is not open, exactly
    when the tour comes to that one first (`includePoint_fillsOpen_iff`). -/

namespace Stencil

open Node

variable {ι : Type}

/-- Blocks of one identity are one block. -/
def Block.Coherent (root : Block ι (Node ι)) : Prop :=
  ∀ block ∈ blocksIn [.ofBlock root], ∀ other ∈ blocksIn [.ofBlock root],
    block.id = other.id → block = other

/-- No body is a marker. -/
def Block.HasPlainBodies (root : Block ι (Node ι)) : Prop :=
  ∀ node ∈ preorderAll root.nodes, ∀ body ∈ node.body?, body.props.isYield = false

namespace Node

/-- The markers that a tour has come to, and the blocks that it has entered. -/
structure Tour (ι : Type) where
  marks : List (Block ι (Node ι)) := []
  entered : List ι

variable {root block mark : Block ι (Node ι)} {node : Node ι} {nodes : List (Node ι)}

/-! ## Tours -/

section Tours

variable [DecidableEq ι]

/-- The tour of a block that was just entered: the block is a marker itself if it leads nowhere. -/
def Tour.within (inside : Tour ι) (entered : List ι) (block : Block ι (Node ι)) : Tour ι :=
  if block.props.isYield && inside.marks.isEmpty && inside.entered == block.id :: entered then
    { inside with marks := [block] }
  else inside

mutual

/-- The tour of a node, when some blocks were entered before. -/
def tour (entered : List ι) : Node ι → Tour ι
  | make _ line kind children =>
      match kind with
      | .block id props =>
          if props.isYield then { marks := [⟨id, line, props, children⟩], entered }
          else if props.textOnly || entered.contains id then { entered }
          else tourAll (id :: entered) children
      | kind => if kind.isTextOnly then { entered } else tourBody entered children

/-- The tour of the first block of a list. -/
def tourBody (entered : List ι) : List (Node ι) → Tour ι
  | [] => { entered }
  | make _ line (.block id props) nodes :: _ =>
      if nodes.isEmpty || entered.contains id then { entered }
      else (tourAll (id :: entered) nodes).within entered ⟨id, line, props, nodes⟩
  | _ :: rest => tourBody entered rest

/-- The tour of the nodes of a list. -/
def tourAll (entered : List ι) : List (Node ι) → Tour ι
  | [] => { entered }
  | node :: nodes =>
      let first := tour entered node
      let rest := tourAll first.entered nodes
      { rest with marks := first.marks ++ rest.marks }

end

/-- The tour of a block, when some blocks were entered before. -/
def Tour.ofBlock (entered : List ι) (block : Block ι (Node ι)) : Tour ι :=
  if block.id ∈ entered then { entered }
  else (tourAll (block.id :: entered) block.nodes).within entered block

/-! ### One node -/

theorem tourBody_eq (entered : List ι) (children : List (Node ι)) :
    tourBody entered children
      = (((children.filterMap block?).head?.filter fun body => !body.nodes.isEmpty).elim { entered }
        (Tour.ofBlock entered)) := by
  induction children with
  | nil => rfl
  | cons child children ih =>
      obtain ⟨own, line, kind, nodes⟩ := child
      cases kind with
      | block id props =>
          cases hnodes : nodes.isEmpty with
          | true => simp [tourBody, block?, Option.filter, List.isEmpty_iff.mp hnodes]
          | false => simp [tourBody, block?, Option.filter, Tour.ofBlock, hnodes]
      | _ => exact ih

/-- A tour that does not end at a node goes down into its block. -/
theorem tour_of_mark?_eq_none (entered : List ι) (h : node.mark? = none) :
    tour entered node = node.into?.elim { entered } (Tour.ofBlock entered) := by
  obtain ⟨own, line, kind, children⟩ := node
  have hother : (∀ id props, kind ≠ .block id props) →
      tour entered (make own line kind children)
        = (make own line kind children).into?.elim { entered } (Tour.ofBlock entered) := by
    intro hkind
    have htour : tour entered (make own line kind children)
        = if kind.isTextOnly then { entered } else tourBody entered children := by
      cases kind with
      | block id props => exact absurd rfl (hkind id props)
      | _ => simp only [tour]
    have hinto : (make own line kind children).into? = if kind.isTextOnly then none
        else (children.filterMap block?).head?.filter fun body => !body.nodes.isEmpty := by
      cases kind with
      | block id props => exact absurd rfl (hkind id props)
      | _ => rfl
    rw [htour, hinto]
    split
    · rfl
    · exact tourBody_eq entered children
  cases kind with
  | block id props =>
      have hyield : props.isYield = false := by simpa [mark?, block?, Option.filter] using h
      cases htext : props.textOnly with
      | true => simp [tour, into?, Node.kind, Kind.isTextOnly, hyield, htext]
      | false => simp [tour, into?, Node.kind, Kind.isTextOnly, block?, Tour.ofBlock, Tour.within,
          hyield, htext]
  | _ => exact hother fun _ _ h => by cases h

theorem tour_of_mark (entered : List ι) (h : node.mark? = some mark) :
    tour entered node = { marks := [mark], entered } := by
  obtain ⟨hblock, hyield⟩ := mark?_eq_some.mp h
  obtain ⟨own, line, kind, children⟩ := node
  cases kind with
  | block id props =>
      cases hblock
      simp only [tour]
      exact if_pos hyield
  | _ => cases hblock

/-- A tour comes to markers in document order. -/
theorem tourAll_sublist (nodes : List (Node ι)) : ∀ entered : List ι,
    (tourAll entered nodes).marks.Sublist (blocksIn nodes) := by
  induction nodes using induct_into with
  | h nodes ih =>
      induction nodes with
      | nil => exact fun _ => .refl _
      | cons node nodes ihRest =>
          intro entered
          rw [tourAll, blocksIn_cons]
          refine .append ?_ (ihRest (fun other hother => ih other (.tail _ hother)) _)
          cases way node with
          | ends hmark =>
              rw [tour_of_mark entered hmark, blocksIn_of_block (mark?_eq_some.mp hmark).1]
              exact .cons_cons _ (List.nil_sublist _)
          | passes hmark hinto =>
              rw [tour_of_mark?_eq_none entered hmark, hinto]
              exact List.nil_sublist _
          | @enters block hmark hinto =>
              rw [tour_of_mark?_eq_none entered hmark, hinto, Option.elim_some, Tour.ofBlock]
              split
              · exact List.nil_sublist _
              · refine .trans ?_ (sublist_of_into hinto)
                rw [Tour.within]
                split
                · exact .cons_cons _ (List.nil_sublist _)
                · exact (ih node (.head _) block hinto _).cons _

/-! ## The search ends at the first marker of the tour -/

/-- What a search has come to, against the tour of the same nodes: its first marker; else a block
    that is none, or the one that it started from when no block was entered. -/
structure Toured (start : Found ι) (tour : Tour ι) (found : Found ι) : Prop where
  first : ∀ mark ∈ tour.marks.head?, found.block = mark ∧ mark.props.isYield
  entered : tour.marks = [] → found.entered = tour.entered
  others : tour.marks = [] → if tour.entered = start.entered then found.block = start.block
    else found.block.props.isYield = false
  longer : start.entered.length ≤ tour.entered.length

/-- What a search does at a node, against the tour of that node. -/
inductive Step (entered : List ι) (node : Node ι) : Prop
  | passes (hsearch : searchNode entered node = none) (htour : tour entered node = { entered })
  | finds {next : Found ι} {marks : List (Block ι (Node ι))}
      (hsearch : searchNode entered node = some next)
      (hmarks : (tour entered node).marks = next.block :: marks)
      (hyield : next.block.props.isYield)
      (hlonger : entered.length ≤ (tour entered node).entered.length)
  | goes {next : Found ι} (hsearch : searchNode entered node = some next)
      (htour : tour entered node = { entered := next.entered })
      (hyield : next.block.props.isYield = false)
      (hlonger : entered.length < next.entered.length)

/-- Going down into a block, when the search in it is as the tour. -/
theorem step_of_into {entered : List ι} (hmark : node.mark? = none)
    (hinto : node.into? = some block)
    (hsearch : searchNode entered node = if block.id ∈ entered then none
      else some (searchNodes (.entering entered block) block.nodes))
    (h : Toured (.entering entered block) (tourAll (block.id :: entered) block.nodes)
      (searchNodes (.entering entered block) block.nodes)) : Step entered node := by
  have htour : tour entered node = Tour.ofBlock entered block := by
    rw [tour_of_mark?_eq_none entered hmark, hinto, Option.elim_some]
  rw [Tour.ofBlock] at htour
  by_cases hentered : block.id ∈ entered
  · rw [if_pos hentered] at hsearch htour
    exact .passes hsearch htour
  · rw [if_neg hentered] at hsearch htour
    generalize searchNodes (.entering entered block) block.nodes = next at h hsearch
    generalize tourAll (block.id :: entered) block.nodes = inside at h htour
    have hlonger : entered.length < inside.entered.length := h.longer
    rw [Tour.within] at htour
    split at htour
    · next hself =>
        -- nothing was entered in the block, so the search is still at it
        simp only [Bool.and_eq_true, List.isEmpty_iff, beq_iff_eq] at hself
        obtain ⟨⟨hyield, hnone⟩, hsame⟩ := hself
        have hfound : next.block = block := (if_pos hsame).mp (h.others hnone)
        have hmarks : (tour entered node).marks = [next.block] := by rw [htour, hfound]
        refine .finds hsearch hmarks (hfound ▸ hyield) ?_
        rw [htour]
        exact Nat.le_of_lt hlonger
    · next hself =>
        cases hmarks : inside.marks with
        | cons mark marks =>
            obtain ⟨hfound, hyield⟩ := h.first mark (by rw [hmarks]; rfl)
            have htaken : (tour entered node).marks = next.block :: marks := by
              rw [htour, hmarks, hfound]
            refine .finds hsearch htaken (hfound ▸ hyield) ?_
            rw [htour]
            exact Nat.le_of_lt hlonger
        | nil =>
            have hentered := h.entered hmarks
            refine .goes hsearch ?_ ?_ (hentered ▸ hlonger)
            · rw [htour, hentered, ← hmarks]
            · have hothers := h.others hmarks
              split at hothers
              · next hsame =>
                  rw [hothers]
                  simpa [hmarks, hsame, Found.entering] using hself
              · exact hothers

/-- **The search ends at the first marker of the tour.** -/
theorem searchNodes_toured (nodes : List (Node ι)) : ∀ start : Found ι,
    Toured start (tourAll start.entered nodes) (searchNodes start nodes) := by
  induction nodes using induct_into with
  | h nodes ih =>
      induction nodes with
      | nil =>
          refine fun start => ⟨nofun, fun _ => rfl, fun _ => ?_, Nat.le_refl _⟩
          rw [tourAll, if_pos rfl, searchNodes]
      | cons node nodes ihRest =>
          intro start
          replace ihRest := ihRest fun other hother => ih other (.tail _ hother)
          have hstep : Step start.entered node := by
            cases way node with
            | @ends mark hmark _ _ hsearch =>
                have htour := tour_of_mark start.entered hmark
                have hmarks : (tour start.entered node).marks = [mark] := by rw [htour]
                refine .finds (hsearch _) hmarks (mark?_eq_some.mp hmark).2 ?_
                exact htour ▸ Nat.le_refl start.entered.length
            | passes hmark hinto _ hsearch =>
                refine .passes (hsearch _) ?_
                rw [tour_of_mark?_eq_none _ hmark, hinto, Option.elim_none]
            | enters hmark hinto _ hsearch =>
                exact step_of_into hmark hinto (hsearch _) (ih node (.head _) _ hinto _)
          cases hstep with
          | passes hsearch htour =>
              rw [searchNodes, hsearch, tourAll, htour]
              exact ihRest start
          | @finds next marks hsearch hmarks hyield hlonger =>
              have hends : searchNodes start (node :: nodes) = next := by
                rw [searchNodes, hsearch]
                exact if_pos hyield
              rw [hends, tourAll, hmarks]
              refine ⟨?_, nofun, nofun, ?_⟩
              · rintro _ ⟨⟩
                exact ⟨rfl, hyield⟩
              · have hrest := (ihRest ⟨next.block, (tour start.entered node).entered⟩).longer
                exact Nat.le_trans hlonger hrest
          | @goes next hsearch htour hyield hlonger =>
              have hgoes : searchNodes start (node :: nodes) = searchNodes next nodes := by
                rw [searchNodes, hsearch]
                exact if_neg (Bool.eq_false_iff.mp hyield)
              have h := ihRest next
              rw [hgoes, tourAll, htour]
              refine ⟨h.first, h.entered, fun hnone => ?_,
                Nat.le_trans (Nat.le_of_lt hlonger) h.longer⟩
              have hlength := h.longer
              rw [if_neg fun hsame : (tourAll next.entered nodes).entered = start.entered => by
                rw [hsame] at hlength
                omega]
              have hothers := h.others hnone
              split at hothers
              · exact hothers ▸ hyield
              · exact hothers

/-- **Included content goes to the first marker of the tour.** -/
theorem includePoint_toured (root : Block ι (Node ι)) :
    ∀ mark ∈ (tourAll [root.id] root.nodes).marks.head?, includePoint root = mark := by
  have h := searchNodes_toured root.nodes (.entering [] root)
  exact fun mark hmark => (h.first mark hmark).1

end Tours

/-! ## Coherent trees -/

section Coherent

theorem mem_preorder_self (node : Node ι) : node ∈ node.preorder := by
  rw [preorder_eq]
  exact .head _

/-- What stands below a node of a tree stands in the tree, in the same order. -/
theorem preorder_sublist (tree : Node ι) : ∀ node ∈ tree.preorder,
    node.preorder.Sublist tree.preorder := by
  induction tree using Node.induct with
  | h own line kind children ih =>
      intro node hnode
      rw [preorder] at hnode ⊢
      rcases List.mem_cons.mp hnode with rfl | hnode
      · rw [preorder]
      · rw [preorderAll_eq_flatMap] at hnode ⊢
        obtain ⟨child, hchild, hnode⟩ := List.mem_flatMap.mp hnode
        refine .cons _ (.trans (ih child hchild node hnode) ?_)
        rw [List.flatMap_def]
        exact List.sublist_flatten_of_mem (List.mem_map_of_mem hchild)

theorem preorderAll_sublist (hnode : node ∈ preorderAll nodes) :
    node.preorder.Sublist (preorderAll nodes) := by
  rw [preorderAll_eq_flatMap] at hnode ⊢
  obtain ⟨tree, htree, hnode⟩ := List.mem_flatMap.mp hnode
  refine .trans (preorder_sublist tree node hnode) ?_
  rw [List.flatMap_def]
  exact List.sublist_flatten_of_mem (List.mem_map_of_mem htree)

/-- A block of a tree stands before those in it. -/
theorem sublist_of_mem_blocksIn (h : block ∈ blocksIn nodes) :
    (block :: blocksIn block.nodes).Sublist (blocksIn nodes) := by
  obtain ⟨node, hnode, hblock⟩ := List.mem_filterMap.mp h
  rw [← blocksIn_of_block hblock, blocksIn, preorderAll, preorderAll, List.append_nil]
  exact (preorderAll_sublist hnode).filterMap _

/-- A block is not inside itself. -/
theorem not_mem_blocksIn_nodes (block : Block ι (Node ι)) : block ∉ blocksIn block.nodes := by
  intro h
  have hlength := (sublist_of_mem_blocksIn h).length_le
  rw [List.length_cons] at hlength
  omega

/-- Where no body is a marker, nor is a block that the search goes down into. -/
theorem isYield_of_into (hplain : root.HasPlainBodies) (hnode : node ∈ preorderAll root.nodes)
    (hinto : node.into? = some block) : block.props.isYield = false := by
  rw [into?] at hinto
  split at hinto
  · cases hinto
  · split at hinto
    · split at hinto
      · cases hinto
      · next hyield =>
          cases hinto
          exact Bool.eq_false_iff.mpr hyield
    · next hblock =>
        have hbody : node.body? = node.blocks.head? := by
          rw [body?, isBlock, hblock]
          rfl
        exact hplain node hnode block (hbody ▸ Option.eq_some_of_filter_eq_some hinto)

/-- The block that the search goes down into stands in the tree, with what is in it. -/
theorem mem_blocksIn_of_into (hnode : node ∈ preorderAll nodes) (hinto : node.into? = some block) :
    block ∈ blocksIn nodes := by
  have hbelow : (blocksIn [node]).Sublist (blocksIn nodes) := by
    rw [blocksIn, preorderAll, preorderAll, List.append_nil]
    exact (preorderAll_sublist hnode).filterMap _
  exact hbelow.subset ((sublist_of_into hinto).subset (.head _))

theorem mem_preorderAll_of_blocksIn (hblock : block ∈ blocksIn nodes) :
    ∀ inner ∈ block.nodes, inner ∈ preorderAll nodes := by
  intro inner hinner
  obtain ⟨node, hnode, hnodes⟩ := List.mem_filterMap.mp hblock
  refine (preorderAll_sublist hnode).subset ?_
  rw [preorder_eq]
  refine .tail _ (mem_preorderAll ?_ (mem_preorder_self inner))
  obtain ⟨own, line, kind, children⟩ := node
  cases kind with
  | block id props =>
      cases hnodes
      exact hinner
  | _ => cases hnodes

/-- There is no marker to come to in the blocks of an identity. -/
def Clear (root : Block ι (Node ι)) (id : ι) : Prop :=
  ∀ block ∈ blocksIn root.nodes, block.id = id → stopsAll block.nodes = []

theorem mem_root (hblock : block ∈ blocksIn root.nodes) : block ∈ blocksIn [.ofBlock root] := by
  rw [blocksIn_of_block (rfl : (Node.ofBlock root).block? = some root)]
  exact .tail _ hblock

/-- In a coherent tree the blocks inside a block have other identities than that block. -/
theorem ne_of_coherent (hcoherent : root.Coherent) (hblock : block ∈ blocksIn [.ofBlock root])
    {inner : Block ι (Node ι)} (hinner : inner ∈ blocksIn block.nodes) : inner.id ≠ block.id := by
  intro hid
  have hmem := (sublist_of_mem_blocksIn hblock).subset (.tail _ hinner)
  exact not_mem_blocksIn_nodes block (hcoherent inner hmem block hblock hid ▸ hinner)

variable [DecidableEq ι]

/-- In a coherent tree, the tour of some nodes comes first to the first marker on the way; and where
    there is none, none is in the blocks that it enters. -/
theorem tourAll_coherent (hcoherent : root.Coherent) (hplain : root.HasPlainBodies)
    (nodes : List (Node ι)) : ∀ entered : List ι,
    (∀ node ∈ nodes, node ∈ preorderAll root.nodes) →
    (∀ block ∈ blocksIn nodes, block.id ∈ entered → Clear root block.id) →
    (tourAll entered nodes).marks.head? = (stopsAll nodes).head?
      ∧ (stopsAll nodes = [] →
        ∀ id ∈ (tourAll entered nodes).entered, id ∈ entered ∨ Clear root id) := by
  induction nodes using induct_into with
  | h nodes ih =>
      induction nodes with
      | nil => exact fun entered _ _ => ⟨rfl, fun _ id hid => .inl hid⟩
      | cons node nodes ihRest =>
          intro entered hwithin hclear
          have hnode := hwithin node (.head _)
          rw [blocksIn_cons] at hclear
          have hfirst : (tour entered node).marks.head? = node.stops.head? ∧ (node.stops = [] →
              ∀ id ∈ (tour entered node).entered, id ∈ entered ∨ Clear root id) := by
            cases way node with
            | ends hmark _ hstops =>
                rw [tour_of_mark entered hmark, hstops]
                exact ⟨rfl, fun h => absurd h (List.cons_ne_nil _ _)⟩
            | passes hmark hinto hstops =>
                rw [tour_of_mark?_eq_none entered hmark, hinto, hstops]
                exact ⟨rfl, fun _ id => .inl⟩
            | @enters block hmark hinto hstops =>
                have hbelow := sublist_of_into hinto
                have hblock := mem_blocksIn_of_into hnode hinto
                have hyield := isYield_of_into hplain hnode hinto
                rw [hyield, Bool.false_and, if_neg Bool.false_ne_true] at hstops
                rw [tour_of_mark?_eq_none entered hmark, hinto, hstops, Option.elim_some,
                  Tour.ofBlock]
                split
                · next hentered =>
                    -- entered before, so there is no marker in it
                    have hnone : stopsAll block.nodes = [] :=
                      hclear block (List.mem_append_left _ (hbelow.subset (.head _))) hentered block
                        hblock rfl
                    rw [hnone]
                    exact ⟨rfl, fun _ id => .inl⟩
                · have h := ih node (.head _) block hinto (block.id :: entered)
                    (mem_preorderAll_of_blocksIn hblock) fun inner hinner hid =>
                      (List.mem_cons.mp hid).elim
                        (fun hself =>
                          absurd hself (ne_of_coherent hcoherent (mem_root hblock) hinner))
                        (hclear inner (List.mem_append_left _ (hbelow.subset (.tail _ hinner))))
                  rw [Tour.within, hyield, Bool.false_and, Bool.false_and,
                    if_neg Bool.false_ne_true]
                  refine ⟨h.1, fun hnone id hid => ?_⟩
                  rcases h.2 hnone id hid with hid | hclear
                  · rcases List.mem_cons.mp hid with rfl | hid
                    · -- in whatever place the block stands, it is this one
                      exact .inr fun other hmem hid => hcoherent other (mem_root hmem) block
                        (mem_root hblock) hid ▸ hnone
                    · exact .inl hid
                  · exact .inr hclear
          have hrest := ihRest (fun other hother => ih other (.tail _ hother))
            (tour entered node).entered fun other hother => hwithin other (.tail _ hother)
          rw [tourAll, stopsAll]
          cases hstops : node.stops with
          | cons mark marks =>
              refine ⟨?_, fun h => absurd h (List.cons_ne_nil mark (marks ++ stopsAll nodes))⟩
              rw [List.head?_append, hfirst.1, hstops]
              rfl
          | nil =>
              have hinside := hfirst.2 hstops
              obtain ⟨hhead, hentered⟩ := hrest fun block hblock hid =>
                (hinside block.id hid).elim (hclear block (List.mem_append_right _ hblock)) id
              refine ⟨?_, fun hnone id hid => (hentered hnone id hid).elim (hinside id) .inr⟩
              rw [List.head?_append, hfirst.1, hstops, hhead]
              rfl

/-- **In a coherent tree the tour comes first to the first marker on the way.** -/
theorem head?_tourAll (hcoherent : root.Coherent) (hplain : root.HasPlainBodies) :
    (tourAll [root.id] root.nodes).marks.head? = (stopsAll root.nodes).head? := by
  have hself : root ∈ blocksIn [.ofBlock root] := by
    rw [blocksIn_of_block rfl]
    exact .head _
  refine (tourAll_coherent hcoherent hplain root.nodes [root.id]
    (fun node hnode => mem_preorderAll hnode (mem_preorder_self node)) fun block hblock hid => ?_).1
  exact absurd (List.mem_singleton.mp hid) (ne_of_coherent hcoherent hself hblock)

end Coherent
end Node

/-! ## Open markers -/

section Open

variable {root target mark : Block ι (Node ι)} {isOpen : Block ι (Node ι) → Bool}

/-- The first open marker below a block outside raw text. -/
def Block.firstOpen? (root : Block ι (Node ι)) (isOpen : Block ι (Node ι) → Bool) :
    Option (Block ι (Node ι)) :=
  ((markupAll root.nodes).filterMap mark?).find? isOpen

/-- Content that goes to a block of a tree goes to the first open marker, if there is one, and to no
    marker that is not open. -/
structure Block.FillsOpen (root target : Block ι (Node ι)) (isOpen : Block ι (Node ι) → Bool) :
    Prop where
  first : ∀ mark ∈ root.firstOpen? isOpen, target = mark
  others : ∀ mark ∈ blocksIn root.nodes, mark.props.isYield → isOpen mark = false → target ≠ mark

theorem Block.isYield_of_firstOpen? (h : root.firstOpen? isOpen = some mark) :
    mark.props.isYield := by
  obtain ⟨node, -, hmark⟩ := List.mem_filterMap.mp (List.mem_of_find?_eq_some h)
  exact (mark?_eq_some.mp hmark).2

variable [DecidableEq ι]

/-- The first marker that the search comes to in a tree, entering every block once. -/
def Block.reached? (root : Block ι (Node ι)) : Option (Block ι (Node ι)) :=
  (tourAll [root.id] root.nodes).marks.head?

/-- The marker that the search comes to first, if it comes to one, is open; and it is the first open
    one, if there is one. -/
structure Block.ReachesOpen (root : Block ι (Node ι)) (isOpen : Block ι (Node ι) → Bool) :
    Prop where
  first : ∀ mark ∈ root.firstOpen? isOpen, root.reached? = some mark
  others : ∀ mark ∈ root.reached?, isOpen mark

theorem Block.mem_of_reached? (h : root.reached? = some mark) : mark ∈ blocksIn root.nodes :=
  (tourAll_sublist root.nodes [root.id]).subset (List.mem_of_mem_head? h)

/-- A marker that included content goes to is the first that the search comes to. -/
theorem reached?_includePoint (hroot : root.props.isYield = false)
    (h : (includePoint root).props.isYield) : root.reached? = some (includePoint root) := by
  have htoured := searchNodes_toured root.nodes (.entering [] root)
  cases hreached : root.reached? with
  | some mark => rw [includePoint_toured root mark hreached]
  | none =>
      have hnone : (tourAll [root.id] root.nodes).marks = [] := List.head?_eq_none_iff.mp hreached
      have hothers := htoured.others hnone
      rw [includePoint] at h
      split at hothers
      · rw [hothers] at h
        exact absurd (hroot.symm.trans h) Bool.false_ne_true
      · exact absurd (hothers.symm.trans h) Bool.false_ne_true

/-- **Included content spares the markers that are not open, and goes to the first open one, exactly
    when the search comes to that one first.** -/
theorem includePoint_fillsOpen_iff (hroot : root.props.isYield = false) :
    root.FillsOpen (includePoint root) isOpen ↔ root.ReachesOpen isOpen := by
  constructor
  · intro hfills
    refine ⟨fun mark hmark => ?_, fun mark hmark => ?_⟩
    · have htarget := hfills.first mark hmark
      rw [← htarget]
      exact reached?_includePoint hroot (htarget ▸ Block.isYield_of_firstOpen? hmark)
    · have htarget := includePoint_toured root mark hmark
      have hyield := ((searchNodes_toured root.nodes (.entering [] root)).first mark hmark).2
      by_contra hclosed
      exact hfills.others mark (Block.mem_of_reached? hmark) hyield (Bool.not_eq_true _ ▸ hclosed)
        htarget
  · intro hreaches
    refine ⟨fun mark hmark => includePoint_toured root mark (hreaches.first mark hmark),
      fun mark _ hyield hclosed htarget => ?_⟩
    have hreached := reached?_includePoint hroot (htarget ▸ hyield)
    have hopen := hreaches.others _ hreached
    rw [htarget, hclosed] at hopen
    exact Bool.false_ne_true hopen

end Open

end Stencil
