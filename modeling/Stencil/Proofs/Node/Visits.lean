import Mathlib.Data.List.Lex
import Stencil.Proofs.Node.Blocks

/-! # Visits — a visit acts where a walk comes by

    A visit is a recursion on the tree and a walk is a loop over a stack; both
    follow the places of the tree.  A place is the way down to it, the position of
    a child at each step, and the lexicographic order of places is the order of
    the document: a place comes before those below it, and what is below a child
    comes before the next child.

    A walk lists the nodes at all places in that order (`walk_placed`).  A visit
    acts at the nodes of the walk, one after the other, and what it gives is what
    the action at the root gave (`visit_walks`). -/

namespace Stencil.Node

variable {ι β : Type} {m : Type → Type}

/-! ## Places -/

/-- The node at a place. -/
def atPlace? (node : Node ι) (place : List Nat) : Option (Node ι) :=
  place.foldlM (fun node position => node.children[position]?) node

theorem atPlace?_cons (node : Node ι) (position : Nat) (place : List Nat) :
    node.atPlace? (position :: place)
      = node.children[position]?.bind fun child => child.atPlace? place :=
  rfl

mutual

/-- The places of a tree. -/
def places : Node ι → List (List Nat)
  | make _ _ _ children => [] :: placesFrom 0 children

/-- The places in the children of a node from a position on. -/
def placesFrom : Nat → List (Node ι) → List (List Nat)
  | _, [] => []
  | position, child :: children =>
      (places child).map (position :: ·) ++ placesFrom (position + 1) children

end

theorem places_eq (node : Node ι) : node.places = [] :: placesFrom 0 node.children := by
  obtain ⟨own, line, kind, children⟩ := node
  simp only [places, Node.children]

/-- The places in the children begin with the positions of these. -/
theorem exists_of_mem_placesFrom {children : List (Node ι)} : ∀ {first : Nat} {place : List Nat},
    place ∈ placesFrom first children → ∃ position rest, place = position :: rest ∧
      first ≤ position := by
  induction children with
  | nil => exact fun h => nomatch h
  | cons child children ih =>
      intro first place h
      rw [placesFrom, List.mem_append, List.mem_map] at h
      rcases h with ⟨rest, -, rfl⟩ | h
      · exact ⟨first, rest, rfl, Nat.le_refl _⟩
      · obtain ⟨position, rest, hplace, hle⟩ := ih h
        exact ⟨position, rest, hplace, Nat.le_of_succ_le hle⟩

/-- The places are in the order of the document. -/
theorem pairwise_places (node : Node ι) : node.places.Pairwise (· < ·) := by
  induction node using induct with
  | h own line kind children ih =>
    have hfrom : ∀ first, (placesFrom first children).Pairwise (· < ·) := by
      induction children with
      | nil => exact fun _ => .nil
      | cons child children ihc =>
          intro first
          rw [placesFrom, List.pairwise_append]
          refine ⟨?_, ihc (fun other hother => ih other (.tail _ hother)) (first + 1), ?_⟩
          · rw [List.pairwise_map]
            exact (ih child (.head _)).imp fun h => List.cons_lt_cons_iff.mpr (.inr ⟨rfl, h⟩)
          · intro place hplace other hother
            obtain ⟨rest, -, rfl⟩ := List.mem_map.mp hplace
            obtain ⟨position, more, rfl, hle⟩ := exists_of_mem_placesFrom hother
            exact List.cons_lt_cons_iff.mpr (.inl hle)
    rw [places_eq, List.pairwise_cons]
    refine ⟨fun place hplace => ?_, hfrom 0⟩
    obtain ⟨position, rest, rfl, -⟩ := exists_of_mem_placesFrom hplace
    exact List.nil_lt_cons position rest

/-- **A walk lists the nodes of a tree at their places.** -/
theorem walk_placed (node : Node ι) : node.walk.map some = node.places.map node.atPlace? := by
  rw [walk_eq_preorder]
  induction node using induct with
  | h own line kind children ih =>
    have hfrom : ∀ more : List (Node ι), (preorderAll children).map some
        = (placesFrom more.length children).map fun place =>
            (make own line kind (more ++ children)).atPlace? place := by
      induction children with
      | nil => exact fun _ => rfl
      | cons child children ihc =>
          intro more
          have hrest := ihc (fun other hother => ih other (.tail _ hother)) (more ++ [child])
          rw [List.length_append, List.append_assoc] at hrest
          rw [preorderAll, placesFrom, List.map_append, List.map_append, ih child (.head _),
            List.map_map]
          refine congrArg₂ (· ++ ·) (List.map_congr_left fun place _ => ?_) hrest
          rw [Function.comp, atPlace?_cons, Node.children,
            List.getElem?_append_right (Nat.le_refl _), Nat.sub_self]
          rfl
    rw [preorder, places_eq, List.map_cons, List.map_cons]
    exact congrArg₂ List.cons rfl (hfrom [])

/-- Every place that there is in a tree is among its places. -/
theorem mem_places_iff (node : Node ι) (place : List Nat) :
    place ∈ node.places ↔ (node.atPlace? place).isSome = true := by
  induction node using induct generalizing place with
  | h own line kind children ih =>
    have hfrom : ∀ first position rest, position :: rest ∈ placesFrom first children
        ↔ first ≤ position ∧ (children[position - first]?.bind fun child =>
            child.atPlace? rest).isSome = true := by
      induction children with
      | nil => simp [placesFrom]
      | cons child children ihc =>
          intro first position rest
          have hmore := ihc (fun other hother => ih other (.tail _ hother)) (first + 1) position rest
          rw [placesFrom, List.mem_append, hmore, List.mem_map]
          rcases Nat.lt_trichotomy position first with hlt | rfl | hgt
          · constructor
            · rintro (⟨_, -, hcons⟩ | ⟨hle, -⟩)
              · exact absurd (List.cons.inj hcons).1 (Nat.ne_of_gt hlt)
              · omega
            · rintro ⟨hle, -⟩
              omega
          · rw [Nat.sub_self, List.getElem?_cons_zero, Option.bind_some,
              ← ih child (.head _) rest]
            constructor
            · rintro (⟨_, hmem, hcons⟩ | ⟨hle, -⟩)
              · exact ⟨Nat.le_refl _, (List.cons.inj hcons).2 ▸ hmem⟩
              · omega
            · exact fun h => .inl ⟨rest, h.2, rfl⟩
          · obtain ⟨offset, rfl⟩ := Nat.exists_eq_add_of_lt hgt
            rw [show first + offset + 1 - (first + 1) = offset by omega,
              show first + offset + 1 - first = offset + 1 by omega, List.getElem?_cons_succ]
            constructor
            · rintro (⟨_, -, hcons⟩ | ⟨-, hsome⟩)
              · have := (List.cons.inj hcons).1
                omega
              · exact ⟨by omega, hsome⟩
            · exact fun h => .inr ⟨by omega, h.2⟩
    rw [places_eq, List.mem_cons]
    cases place with
    | nil => simp [atPlace?]
    | cons position rest =>
        rw [Node.children, hfrom, atPlace?_cons, Node.children, Nat.sub_zero]
        simp

/-! ## Parts -/

theorem filterMap_block?_ofBlock (blocks : List (Block ι (Node ι))) :
    (blocks.map ofBlock).filterMap block? = blocks := by
  rw [List.filterMap_map]
  exact List.filterMap_some

/-- Code is no block. -/
theorem block?_of_isCode {part : Node ι} (h : part.isCode = true) : part.block? = none := by
  obtain ⟨own, line, kind, children⟩ := part
  cases kind with
  | code value buffer escape => rfl
  | _ => exact nomatch h

/-- The parts of a node that was built around inline code and some blocks. -/
theorem parts_of_children {node : Node ι} {code : Option (Node ι)}
    {blocks : List (Block ι (Node ι))}
    (hchildren : node.children = code.toList ++ blocks.map ofBlock) (hnode : node.isBlock = false)
    (hcode : ∀ part ∈ code, part.isCode = true) :
    node.code? = code ∧ node.body? = blocks.head? ∧ node.alternative? = blocks[1]? := by
  have hblocks : node.blocks = blocks := by
    have hnone : code.toList.filterMap block? = [] :=
      List.filterMap_eq_nil_iff.mpr fun part hpart =>
        block?_of_isCode (hcode part (Option.mem_toList.mp hpart))
    rw [Node.blocks, hchildren, List.filterMap_append, hnone, filterMap_block?_ofBlock,
      List.nil_append]
  have hfound : node.children.find? isCode = code := by
    rw [hchildren]
    cases code with
    | some part => exact List.find?_cons_of_pos (hcode part rfl)
    | none =>
        refine List.find?_eq_none.mpr fun part hpart => ?_
        obtain ⟨block, -, rfl⟩ := List.mem_map.mp hpart
        exact Bool.false_ne_true
  have hno : ¬ node.isBlock = true := Bool.eq_false_iff.mp hnode
  rw [code?, body?, alternative?, if_neg hno, if_neg hno, if_neg hno, hblocks, hfound]
  exact ⟨rfl, rfl, rfl⟩

/-! ## Visits -/

section Visits

variable [Monad m] [LawfulMonad m] (visitor : Visitor ι m β)

/-- Does what a visitor does at the nodes of a list, one after the other. -/
def dispatchAll (visitor : Visitor ι m β) (nodes : List (Node ι)) : m PUnit :=
  nodes.forM fun node => discard (visitor.dispatch node)

omit [LawfulMonad m] in
theorem visit_eq (node : Node ι) :
    visit visitor node = (do
      let result ← visitor.dispatch node
      visitAll visitor node.children
      return result) := by
  obtain ⟨own, line, kind, children⟩ := node
  rw [visit]
  rfl

/-- An action whose result is dropped. -/
theorem discard_bind_eq {α : Type} (action : m α) (next : Unit → m β) :
    (discard action >>= next) = action >>= fun _ => next () := by
  rw [discard, map_const, Function.comp, ← bind_pure_comp, bind_assoc]
  simp only [Function.const, pure_bind]

theorem dispatchAll_cons (node : Node ι) (nodes : List (Node ι)) :
    dispatchAll visitor (node :: nodes)
      = visitor.dispatch node >>= fun _ => dispatchAll visitor nodes := by
  show (discard (visitor.dispatch node) >>= fun _ => dispatchAll visitor nodes) = _
  rw [discard_bind_eq]

theorem dispatchAll_append (nodes more : List (Node ι)) :
    dispatchAll visitor (nodes ++ more)
      = dispatchAll visitor nodes >>= fun _ => dispatchAll visitor more := by
  induction nodes with
  | nil =>
      show dispatchAll visitor more = pure PUnit.unit >>= fun _ => dispatchAll visitor more
      rw [pure_bind]
  | cons node nodes ih =>
      rw [List.cons_append, dispatchAll_cons, dispatchAll_cons, ih, bind_assoc]

/-- A visit acts at a node and then at all nodes below it, in document order. -/
theorem visit_eq_dispatchAll (node : Node ι) :
    visit visitor node = (do
      let result ← visitor.dispatch node
      dispatchAll visitor (preorderAll node.children)
      return result) := by
  induction node using induct with
  | h own line kind children ih =>
    have hall : visitAll visitor children = dispatchAll visitor (preorderAll children) := by
      induction children with
      | nil => rfl
      | cons child children ihc =>
          have hrest := ihc fun other hother => ih other (.tail _ hother)
          rw [visitAll, discard_bind_eq, ih child (.head _), hrest, preorderAll, dispatchAll_append,
            preorder_eq, dispatchAll_cons]
          simp only [bind_assoc, pure_bind]
    rw [visit_eq, Node.children, hall]

/-- **A visit goes where a walk goes.**  It acts at the nodes that the walk lists, in that order,
    and gives what the action at the root gave.  The walk lists one node for each place of the tree,
    in document order: a node comes before what is below it.  Of a node that was built around its
    parts, as `newNode` builds it, the walk lists the inline code before the body, and the body of a
    loop before the block for an empty source. -/
theorem visit_walks (visitor : Visitor ι m β) (node : Node ι) :
    (∃ below, node.walk = node :: below
      ∧ visit visitor node = (do
        let result ← visitor.dispatch node
        below.forM fun other => discard (visitor.dispatch other)
        return result))
      ∧ (∃ places : List (List Nat), node.walk.map some = places.map node.atPlace?
        ∧ places.Pairwise (· < ·)
        ∧ ∀ place, place ∈ places ↔ (node.atPlace? place).isSome = true)
      ∧ ∀ (code : Option (Node ι)) (blocks : List (Block ι (Node ι))),
        node.children = code.toList ++ blocks.map ofBlock →
        node.walk = node :: (code.toList.flatMap walk ++ (blocks.map ofBlock).flatMap walk)
          ∧ (node.isBlock = false → (∀ part ∈ code, part.isCode = true) →
            node.code? = code ∧ node.body? = blocks.head? ∧ node.alternative? = blocks[1]?) := by
  have hwalk : ∀ nodes : List (Node ι), preorderAll nodes = nodes.flatMap walk := by
    intro nodes
    rw [preorderAll_eq_flatMap]
    exact List.flatMap_congr fun node _ => node.walk_eq_preorder.symm
  refine ⟨⟨_, by rw [walk_eq_preorder, preorder_eq], visit_eq_dispatchAll visitor node⟩,
    ⟨node.places, node.walk_placed, node.pairwise_places, node.mem_places_iff⟩, ?_⟩
  refine fun code blocks hchildren => ⟨?_, parts_of_children hchildren⟩
  rw [walk_eq_preorder, preorder_eq, hwalk, hchildren, List.flatMap_append]

end Visits

/-- Writes down what it comes by. -/
def noting : Visitor Unit (StateM (List String)) Nat where
  default node := do
    modify (· ++ [(node.label?).getD "block"])
    return node.children.length
  text node := do
    modify (· ++ ["text " ++ (node.label?).getD ""])
    return 0

/-- An element with inline code, in front of a loop that has a block for an empty source. -/
def shelf : Tree :=
  ofBlock { id := (), nodes := [
    withParts 1 (.tag { name := "ul" } false) (some (leaf 1 (.code "n" true true)))
      [{ id := (), nodes := [leaf 2 (.text "many")] }],
    withParts 3 (.each "books" "book" "index") none
      [{ id := (), nodes := [leaf 4 (.text "title")] },
       { id := (), nodes := [leaf 6 (.comment "none" true)] }]] }

/-- The code of the element comes before its text, and the titles of the loop before its comment. -/
theorem visit_walks_shelf : LawfulMonad (StateM (List String))
    ∧ (visit noting shelf).run []
      = (2, ["block", "ul", "n", "block", "text many", "book", "block", "text title", "block",
          "none"])
    ∧ shelf.walk.length = 10 := by
  have hlawful : LawfulMonad (StateM (List String)) := inferInstance
  obtain ⟨⟨below, hwalk, hvisit⟩, -, -⟩ := visit_walks noting shelf
  have hbelow : below = shelf.walk.tail := by rw [hwalk, List.tail_cons]
  refine ⟨hlawful, ?_, by decide⟩
  rw [hvisit, hbelow]
  rfl

end Stencil.Node
