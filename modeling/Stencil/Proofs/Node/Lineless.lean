import Stencil.Proofs.Node.Blocks
import Stencil.Proofs.Node.Preorder

/-! # Trees without their line numbers

    The line of a node is written into it when it is made, and nothing that is
    done with trees looks at it again: the tree of a composition without lines is
    what comes of the trees without lines.  One lemma says so for each thing that
    is done with a tree. -/

namespace Stencil

namespace Node

variable {ι κ : Type}

/-- A tree without line numbers. -/
def lineless (node : Node ι) : Node ι :=
  node.fold fun own _ kind children => make own 0 kind children

theorem lineless_make (own : Option ι) (line : Int) (kind : Kind ι) (children : List (Node ι)) :
    (make own line kind children).lineless = make own 0 kind (children.map lineless) := by
  rw [lineless, fold, foldList_eq_map]
  rfl

theorem id?_lineless (node : Node ι) : node.lineless.id? = node.id? := by
  obtain ⟨own, line, kind, children⟩ := node
  rw [lineless_make]
  rfl

theorem children_lineless (node : Node ι) :
    node.lineless.children = node.children.map lineless := by
  obtain ⟨own, line, kind, children⟩ := node
  rw [lineless_make]
  rfl

/-- What is done with each tree of a list is done with each tree without lines. -/
theorem map_lineless {f : Node ι → Node κ} {g : Node ι → Node κ} {nodes : List (Node ι)}
    (h : ∀ node ∈ nodes, (f node).lineless = g node.lineless) :
    (nodes.map f).map lineless = (nodes.map lineless).map g := by
  rw [List.map_map, List.map_map]
  exact List.map_congr_left h

/-- Trees that differ in line numbers alone. -/
def Like (node other : Node ι) : Prop := node.lineless = other.lineless

end Node

/-- A block without line numbers, inside as well. -/
def Block.lineless {ι : Type} (block : Block ι (Node ι)) : Block ι (Node ι) :=
  { block with line := 0, nodes := block.nodes.map Node.lineless }

/-- Blocks that differ in line numbers alone. -/
def Block.Like {ι : Type} (block other : Block ι (Node ι)) : Prop := block.lineless = other.lineless

namespace Node

variable {ι κ : Type}

/-- Blocks with the same identity and properties, and with nodes that are alike. -/
theorem like_of_parts {block other : Block ι (Node ι)} (id : block.id = other.id)
    (props : block.props = other.props)
    (nodes : block.nodes.map lineless = other.nodes.map lineless) : block.Like other := by
  rw [Block.Like, Block.lineless, Block.lineless, id, props, nodes]

theorem lineless_ofBlock (block : Block ι (Node ι)) :
    (ofBlock block).lineless = ofBlock block.lineless :=
  lineless_make none block.line (.block block.id block.props) block.nodes

theorem lineless_relabel (f : ι → κ) (node : Node ι) :
    (node.relabel f).lineless = node.lineless.relabel f := by
  induction node using induct with
  | h own line kind children ih =>
      rw [relabel_make, lineless_make, lineless_make, relabel_make, map_lineless ih]

theorem lineless_finished (node : Node ι) : node.finished.lineless = node.lineless.finished := by
  have hmake : ∀ own line (kind : Kind ι) children, (make own line kind children).finished
      = mk line (kind.relabel fun _ => ()) (children.map finished) := by
    intro own line kind children
    rw [finished, fold, foldList_eq_map]
    rfl
  induction node using induct with
  | h own line kind children ih =>
      rw [hmake, mk, lineless_make, lineless_make, hmake, map_lineless ih]
      rfl

theorem preorder_lineless (node : Node ι) :
    node.lineless.preorder = node.preorder.map lineless := by
  induction node using induct with
  | h own line kind children ih =>
      have hchildren : (children.map lineless).flatMap preorder
          = (children.flatMap preorder).map lineless := by
        rw [List.flatMap_map, List.map_flatMap]
        simp only [List.flatMap, List.map_congr_left ih]
      rw [preorder_eq, preorder_eq, children_lineless, preorderAll_eq_flatMap,
        preorderAll_eq_flatMap, List.map_cons]
      exact congrArg _ hchildren

theorem ids_map_lineless (nodes : List (Node ι)) : ids (nodes.map lineless) = ids nodes := by
  have hids : (id? ∘ lineless : Node ι → Option ι) = id? := funext id?_lineless
  rw [ids, ids, preorderAll_eq_flatMap, preorderAll_eq_flatMap, List.flatMap_map]
  simp only [preorder_lineless]
  rw [← List.map_flatMap, List.map_map, hids]

end Node

theorem identities_lineless (root : Draft) : identities root.lineless = identities root := by
  rw [identities_eq, identities_eq, Node.id?_lineless, Node.children_lineless,
    Node.ids_map_lineless]

theorem Registry.blockIds_lineless (node : Draft) : blockIds node.lineless = blockIds node := by
  induction node using Node.induct with
  | h own line kind children ih =>
      have hchildren : (children.map Node.lineless).flatMap blockIds
          = children.flatMap blockIds := by
        rw [List.flatMap_map]
        simp only [List.flatMap, List.map_congr_left ih]
      rw [Node.lineless_make]
      cases kind with
      | block id props => rw [blockIds_block, blockIds_block, hchildren]
      | _ =>
          rw [blockIds_make own line children fun _ _ => rfl, ← hchildren]
          exact blockIds_make _ _ _ fun _ _ => rfl

theorem Store.lineless_substitute (other : BlockId → Option (Block BlockId Draft)) (node : Draft) :
    (substitute other node).lineless
      = substitute (fun id => (other id).map Block.lineless) node.lineless := by
  induction node using Node.induct with
  | h own line kind children ih =>
      have hchildren := Node.map_lineless ih
      rw [Node.lineless_make]
      cases kind with
      | block id props =>
          cases hstate : other id with
          | some state =>
              rw [substitute_block_some hstate, substitute_block_some (by rw [hstate]; rfl),
                Node.lineless_ofBlock]
          | none =>
              rw [substitute_block_none hstate, substitute_block_none (by rw [hstate]; rfl),
                Node.lineless_make, hchildren]
      | _ =>
          rw [substitute_make fun _ _ => rfl, substitute_make fun _ _ => rfl, Node.lineless_make,
            hchildren]

/-! ## The include point -/

namespace Node

variable {ι : Type} [DecidableEq ι]

/-- What a search has come to, without line numbers. -/
def Found.lineless (found : Found ι) : Found ι := ⟨found.block.lineless, found.entered⟩

mutual

theorem searchNode_lineless (entered : List ι) : ∀ node : Node ι,
    searchNode entered node.lineless = (searchNode entered node).map Found.lineless
  | make own line kind children => by
      rw [lineless_make]
      cases kind with
      | block id props =>
          simp only [searchNode]
          split
          · rfl
          · split
            · rfl
            · have hstart : Found.entering entered
                  (⟨id, 0, props, children.map lineless⟩ : Block ι (Node ι))
                    = Found.lineless (.entering entered ⟨id, line, props, children⟩) := rfl
              rw [hstart, searchNodes_lineless]
              rfl
      | _ =>
          simp only [searchNode]
          split
          · rfl
          · exact searchBody_lineless entered children

theorem searchBody_lineless (entered : List ι) : ∀ nodes : List (Node ι),
    searchBody entered (nodes.map lineless) = (searchBody entered nodes).map Found.lineless
  | [] => rfl
  | make own line kind children :: rest => by
      rw [List.map_cons, lineless_make]
      cases kind with
      | block id props =>
          simp only [searchBody, List.isEmpty_map]
          split
          · rfl
          · have hstart : Found.entering entered
                (⟨id, 0, props, children.map lineless⟩ : Block ι (Node ι))
                  = Found.lineless (.entering entered ⟨id, line, props, children⟩) := rfl
            rw [hstart, searchNodes_lineless]
            rfl
      | _ =>
          simp only [searchBody]
          exact searchBody_lineless entered rest

theorem searchNodes_lineless (found : Found ι) : ∀ nodes : List (Node ι),
    searchNodes found.lineless (nodes.map lineless) = (searchNodes found nodes).lineless
  | [] => by simp only [List.map_nil, searchNodes]
  | node :: nodes => by
      rw [List.map_cons, searchNodes, searchNodes,
        show found.lineless.entered = found.entered from rfl, searchNode_lineless]
      cases searchNode found.entered node with
      | none => exact searchNodes_lineless found nodes
      | some next =>
          simp only [Option.map_some, show next.lineless.block.props = next.block.props from rfl]
          split
          · rfl
          · exact searchNodes_lineless next nodes

end

theorem lineless_includePoint (root : Block ι (Node ι)) :
    (includePoint root).lineless = includePoint root.lineless :=
  (congrArg Found.block (searchNodes_lineless (.entering [] root) root.nodes)).symm

end Node

end Stencil
