import Stencil.Node

/-! # The include point — where included content goes

    Content below an `include` statement goes into the included tree.  The
    first `yield` marker that is found takes it; without a marker it is the
    last block that can be reached by going down through blocks and bodies
    with contents.  Raw text is never searched, and no block is entered twice. -/

namespace Stencil.Node

variable {ι : Type} [DecidableEq ι]

/-- What a search has come to: the block found so far, and the blocks that were entered. -/
structure Found (ι : Type) where
  block : Block ι (Node ι)
  entered : List ι

/-- The search when it has just entered a block. -/
def Found.entering {ι : Type} (entered : List ι) (block : Block ι (Node ι)) : Found ι :=
  ⟨block, block.id :: entered⟩

mutual

/-- Goes down into a node, if it can be entered: a block, or a body with contents. -/
def searchNode (entered : List ι) : Node ι → Option (Found ι)
  | make _ line kind children =>
      match kind with
      | .block id props =>
          if props.isYield then some ⟨⟨id, line, props, children⟩, entered⟩
          else if props.textOnly || entered.contains id then none
          else some (searchNodes (.entering entered ⟨id, line, props, children⟩) children)
      | kind => if kind.isTextOnly then none else searchBody entered children

/-- Goes down into the first block among the children of a node, if it has contents. -/
def searchBody (entered : List ι) : List (Node ι) → Option (Found ι)
  | [] => none
  | make _ line (.block id props) nodes :: _ =>
      if nodes.isEmpty || entered.contains id then none
      else some (searchNodes (.entering entered ⟨id, line, props, nodes⟩) nodes)
  | _ :: rest => searchBody entered rest

/-- Goes on with a search through the nodes of a block. -/
def searchNodes (found : Found ι) : List (Node ι) → Found ι
  | [] => found
  | node :: nodes =>
      match searchNode found.entered node with
      | none => searchNodes found nodes
      | some next => if next.block.props.isYield then next else searchNodes next nodes

end

/-- The block of a tree, given by its root block, that included content goes into. -/
def includePoint (root : Block ι (Node ι)) : Block ι (Node ι) :=
  (searchNodes (.entering [] root) root.nodes).block

end Stencil.Node
