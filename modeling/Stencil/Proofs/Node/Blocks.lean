import Stencil.Proofs.Composition.Resolve

/-! # Blocks of a tree — which blocks stand in it, and how they are renamed

    The contents of a block may change wherever it stands, so what matters about
    a tree is which blocks stand in it (`blockIds`).  Here it is said how these
    come out when a tree is built, renamed, brought to its current state, or
    searched for the place of included content. -/

namespace Stencil

namespace Node

variable {ι κ : Type}

/-- What holds of a node when it holds of its children holds of every tree. -/
theorem induct {motive : Node ι → Prop}
    (h : ∀ own line kind children, (∀ child ∈ children, motive child) →
      motive (make own line kind children)) : ∀ node, motive node
  | make own line kind children => h own line kind children fun child _ => induct h child

/-! ## Renaming -/

theorem relabel_make (f : ι → κ) (own : Option ι) (line : Int) (kind : Kind ι)
    (children : List (Node ι)) :
    (make own line kind children).relabel f
      = make (own.map f) line (kind.relabel f) (children.map (relabel f)) := by
  rw [relabel, fold, foldList_eq_map]
  rfl

theorem relabel_id (node : Node ι) : node.relabel id = node := by
  induction node using induct with
  | h own line kind children ih =>
      have hkind : kind.relabel id = kind := by cases kind <;> rfl
      have hchildren : children.map (relabel id) = children :=
        List.map_congr_left ih |>.trans (List.map_id children)
      rw [relabel_make, hkind, hchildren, Option.map_id, id]

end Node

/-- A block with other identities, inside as well. -/
def Block.relabel {ι κ : Type} (f : ι → κ) (block : Block ι (Node ι)) : Block κ (Node κ) where
  id := f block.id
  line := block.line
  props := block.props
  nodes := block.nodes.map (Node.relabel f)

theorem Block.relabel_id {ι : Type} (block : Block ι (Node ι)) :
    block.relabel (fun id => id) = block := by
  have hnodes : block.nodes.map (Node.relabel fun id => id) = block.nodes :=
    (List.map_congr_left fun node _ => Node.relabel_id node).trans (List.map_id _)
  rw [relabel, hnodes]

theorem Node.relabel_ofBlock {ι κ : Type} (f : ι → κ) (block : Block ι (Node ι)) :
    (ofBlock block).relabel f = ofBlock (block.relabel f) :=
  relabel_make f none block.line (.block block.id block.props) block.nodes

namespace Registry

/-! ## The blocks that stand in a tree -/

theorem blockIds_block (own : Option BlockId) (line : Int) (id : BlockId) (props : BlockProps)
    (children : List Draft) :
    blockIds (.make own line (.block id props) children) = id :: children.flatMap blockIds := by
  rw [blockIds, Node.fold, Node.foldList_eq_map]
  rfl

theorem blockIds_ofBlock (block : Block BlockId Draft) :
    blockIds (.ofBlock block) = block.id :: block.nodes.flatMap blockIds :=
  blockIds_block none block.line block.id block.props block.nodes

/-- In a node that is no block stand the blocks of its children. -/
theorem blockIds_make {kind : Kind BlockId} (own : Option BlockId) (line : Int)
    (children : List Draft)
    (hkind : ∀ own children, (Node.make own line kind children).id? = own) :
    blockIds (.make own line kind children) = children.flatMap blockIds := by
  cases kind with
  | block id props => exact nomatch hkind none []
  | _ =>
      rw [blockIds, Node.fold, Node.foldList_eq_map]
      rfl

theorem mem_blockIds_of_child {own : Option BlockId} {line : Int} {kind : Kind BlockId}
    {children : List Draft} {id : BlockId} (h : id ∈ children.flatMap blockIds) :
    id ∈ blockIds (.make own line kind children) := by
  cases kind with
  | block block props =>
      rw [blockIds_block]
      exact List.mem_cons_of_mem _ h
  | _ =>
      rw [blockIds_make own line children fun _ _ => rfl]
      exact h

theorem blockIds_relabel (f : BlockId → BlockId) (node : Draft) :
    blockIds (node.relabel f) = (blockIds node).map f := by
  induction node using Node.induct with
  | h own line kind children ih =>
      have hchildren : (children.map (Node.relabel f)).flatMap blockIds
          = (children.flatMap blockIds).map f := by
        rw [List.flatMap_map, List.map_flatMap]
        simp only [List.flatMap, List.map_congr_left ih]
      rw [Node.relabel_make]
      cases kind with
      | block id props =>
          rw [Kind.relabel, blockIds_block, blockIds_block, hchildren, List.map_cons]
      | _ =>
          rw [blockIds_make own line children fun _ _ => rfl, ← hchildren]
          exact blockIds_make _ line _ fun _ _ => rfl

end Registry

namespace Store

open Registry

/-! ## Trees in their current state -/

variable {other : BlockId → Option (Block BlockId Draft)}

theorem substitute_block_some {own : Option BlockId} {line : Int} {id : BlockId}
    {props : BlockProps} {children : List Draft} {state : Block BlockId Draft}
    (h : other id = some state) :
    substitute other (.make own line (.block id props) children) = .ofBlock state := by
  simp only [substitute, h]

theorem substitute_block_none {own : Option BlockId} {line : Int} {id : BlockId}
    {props : BlockProps} {children : List Draft} (h : other id = none) :
    substitute other (.make own line (.block id props) children)
      = .make own line (.block id props) (children.map (substitute other)) := by
  simp only [substitute, h, substituteAll_eq_map]

/-- A node that is no block stays, around its changed children. -/
theorem substitute_make {own : Option BlockId} {line : Int} {kind : Kind BlockId}
    {children : List Draft}
    (hkind : ∀ own children, (Node.make own line kind children).id? = own) :
    substitute other (.make own line kind children)
      = .make own line kind (children.map (substitute other)) := by
  cases kind with
  | block id props => exact nomatch hkind none []
  | _ => simp only [substitute, substituteAll_eq_map]

/-- What stands in a tree after blocks were put in the place of others stood in it before, or
    stands in a block that was put in. -/
theorem mem_blockIds_substitute {K : BlockId → Prop} (hother : ∀ {id state}, K id →
      other id = some state → ∀ inner ∈ blockIds (.ofBlock state), K inner) (node : Draft) :
    (∀ id ∈ blockIds node, K id) → ∀ id ∈ blockIds (substitute other node), K id := by
  induction node using Node.induct with
  | h own line kind children ih =>
      intro hnode
      have hchildren : ∀ id ∈ (children.map (substitute other)).flatMap blockIds, K id := by
        intro id hid
        rw [List.flatMap_map] at hid
        obtain ⟨child, hchild, hid⟩ := List.mem_flatMap.mp hid
        refine ih child hchild (fun inner hinner => hnode inner ?_) id hid
        exact mem_blockIds_of_child (List.mem_flatMap.mpr ⟨child, hchild, hinner⟩)
      cases kind with
      | block block props =>
          rw [blockIds_block] at hnode
          have hblock := hnode block List.mem_cons_self
          cases hstate : other block with
          | some state =>
              rw [substitute_block_some hstate]
              exact hother hblock hstate
          | none =>
              rw [substitute_block_none hstate, blockIds_block]
              exact List.forall_mem_cons.mpr ⟨hblock, hchildren⟩
      | _ =>
          rw [substitute_make fun _ _ => rfl, blockIds_make own line _ fun _ _ => rfl]
          exact hchildren

/-- Renaming a tree and its substitutes alike renames the outcome. -/
theorem substitute_relabel {other' : BlockId → Option (Block BlockId Draft)}
    (f : BlockId → BlockId) (node : Draft) :
    (∀ id ∈ blockIds node, other' (f id) = (other id).map (Block.relabel f)) →
      substitute other' (node.relabel f) = (substitute other node).relabel f := by
  induction node using Node.induct with
  | h own line kind children ih =>
      intro hnode
      have hchildren : (children.map (Node.relabel f)).map (substitute other')
          = (children.map (substitute other)).map (Node.relabel f) := by
        rw [List.map_map, List.map_map]
        refine List.map_congr_left fun child hchild => ih child hchild fun id hid => hnode id ?_
        exact mem_blockIds_of_child (List.mem_flatMap.mpr ⟨child, hchild, hid⟩)
      rw [Node.relabel_make]
      cases kind with
      | block block props =>
          have hblock := hnode block (by
            rw [blockIds_block]
            exact List.mem_cons_self)
          cases hstate : other block with
          | some state =>
              rw [hstate] at hblock
              rw [Kind.relabel, substitute_block_some hblock, substitute_block_some hstate,
                Node.relabel_ofBlock]
          | none =>
              rw [hstate] at hblock
              rw [Kind.relabel, substitute_block_none hblock, substitute_block_none hstate,
                Node.relabel_make, Kind.relabel, hchildren]
      | _ =>
          rw [Kind.relabel, substitute_make fun _ _ => rfl, hchildren,
            substitute_make fun _ _ => rfl, Node.relabel_make]
          rfl

end Store

/-! ## The include point -/

namespace Node

open Registry

/-- A property of trees that passes on to the trees in them, and does not depend on how a block is
    written. -/
structure Inherited (P : Draft → Prop) : Prop where
  child : ∀ {own line kind children}, P (make own line kind children) →
    ∀ child ∈ children, P child
  block : ∀ {own line id props children}, P (make own line (.block id props) children) →
    P (.ofBlock ⟨id, line, props, children⟩)

mutual

theorem searchNode_inherits {P : Draft → Prop} (hP : Inherited P) {entered : List BlockId}
    {found : Found BlockId} : ∀ {node : Draft}, P node → searchNode entered node = some found →
      P (.ofBlock found.block)
  | make own line kind children, hnode, hfound => by
      have hchildren := hP.child hnode
      cases kind with
      | block block props =>
          have hself := hP.block hnode
          simp only [searchNode] at hfound
          split at hfound
          · cases hfound
            exact hself
          · split at hfound
            · cases hfound
            · cases hfound
              exact searchNodes_inherits hP hself hchildren
      | _ =>
          simp only [searchNode] at hfound
          split at hfound
          · cases hfound
          · exact searchBody_inherits hP hchildren hfound

theorem searchBody_inherits {P : Draft → Prop} (hP : Inherited P) {entered : List BlockId}
    {found : Found BlockId} :
    ∀ {nodes : List Draft}, (∀ node ∈ nodes, P node) → searchBody entered nodes = some found →
      P (.ofBlock found.block)
  | [], _, hfound => nomatch hfound
  | make own line kind children :: rest, hnodes, hfound => by
      obtain ⟨hnode, hrest⟩ := List.forall_mem_cons.mp hnodes
      cases kind with
      | block block props =>
          simp only [searchBody] at hfound
          split at hfound
          · cases hfound
          · cases hfound
            exact searchNodes_inherits hP (hP.block hnode) (hP.child hnode)
      | _ =>
          simp only [searchBody] at hfound
          exact searchBody_inherits hP hrest hfound

theorem searchNodes_inherits {P : Draft → Prop} (hP : Inherited P) {found : Found BlockId} :
    ∀ {nodes : List Draft}, P (.ofBlock found.block) → (∀ node ∈ nodes, P node) →
      P (.ofBlock (searchNodes found nodes).block)
  | [], hfound, _ => by
      rw [searchNodes]
      exact hfound
  | node :: nodes, hfound, hnodes => by
      obtain ⟨hnode, hrest⟩ := List.forall_mem_cons.mp hnodes
      rw [searchNodes]
      split
      · exact searchNodes_inherits hP hfound hrest
      · next next hnext =>
          have hstep := searchNode_inherits hP hnode hnext
          split
          · exact hstep
          · exact searchNodes_inherits hP hstep hrest

end

/-- The block that included content goes into has what all trees in the root have. -/
theorem includePoint_inherits {P : Draft → Prop} (hP : Inherited P) {root : Block BlockId Draft}
    (h : P (.ofBlock root)) : P (.ofBlock (includePoint root)) :=
  searchNodes_inherits hP h (hP.child h)

/-- The block that included content goes into is the root or stands in the tree. -/
theorem includePoint_within {K : BlockId → Prop} {root : Block BlockId Draft}
    (h : ∀ id ∈ blockIds (.ofBlock root), K id) :
    ∀ id ∈ blockIds (.ofBlock (includePoint root)), K id := by
  have hP : Inherited fun node => ∀ id ∈ blockIds node, K id := by
    constructor
    · intro own line kind children h child hchild id hid
      exact h id (mem_blockIds_of_child (List.mem_flatMap.mpr ⟨child, hchild, hid⟩))
    · intro own line id props children h
      rwa [blockIds_block, ← blockIds_ofBlock ⟨id, line, props, children⟩] at h
  exact includePoint_inherits hP h

end Node

end Stencil
