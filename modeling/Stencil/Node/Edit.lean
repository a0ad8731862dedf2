import Stencil.Node

/-! # Edits by path — changing one place of a tree

    A place in a tree is named by the steps that lead to it from the root: a
    step into a block by index, or to the body, the inline code or the
    alternative of a node.  A forest holds trees by name, so that contents can
    be moved between trees. -/

namespace Stencil

/-- A step from a node to one of its children. -/
inductive Step where
  /-- A child of a block, by position. -/
  | node (index : Nat)
  /-- The body of a node. -/
  | body
  /-- The inline code of an element or a mixin. -/
  | code
  /-- The block of a loop for an empty source. -/
  | alternative
deriving Repr, DecidableEq

namespace Node

variable {ι : Type}

/-- The step to the child with the given position, when `bodySeen` tells whether a block comes
    before it. -/
def stepTo (inBlock : Bool) (index : Nat) (bodySeen : Bool) (child : Node ι) : Step :=
  if inBlock then .node index
  else if child.isCode then .code
  else if bodySeen then .alternative
  else .body

/-- The steps to the children of a node, in order. -/
def stepsFrom (inBlock : Bool) : Nat → Bool → List (Node ι) → List Step
  | _, _, [] => []
  | index, bodySeen, child :: rest =>
      stepTo inBlock index bodySeen child
        :: stepsFrom inBlock (index + 1) (bodySeen || child.isBlock) rest

/-- The position among the children that a step leads to. -/
def position? (node : Node ι) (step : Step) : Option Nat :=
  (stepsFrom node.isBlock 0 false node.children).idxOf? step

/-- The node that a step leads to. -/
def child? (node : Node ι) (step : Step) : Option (Node ι) :=
  (node.position? step).bind fun position => node.children[position]?

/-- The node that a path leads to. -/
def at? (node : Node ι) (path : List Step) : Option (Node ι) := path.foldlM child? node

/-- Changes the node that a path leads to. -/
def modifyAt (f : Node ι → Node ι) : List Step → Node ι → Node ι
  | [], node => f node
  | step :: path, node =>
      match node.position? step with
      | some position => node.withChildren (node.children.modify position (modifyAt f path))
      | none => node

mutual

/-- Names every block by its path from the root, `path` being the path of the tree itself. -/
def labelPaths (path : List Step) : Node ι → Node (List Step)
  | make _ line kind children =>
      mk line (kind.relabel fun _ => path)
        (labelChildren path (leaf line kind).isBlock 0 false children)

/-- Names the blocks in the children of a node by their paths. -/
def labelChildren (path : List Step) (inBlock : Bool) :
    Nat → Bool → List (Node ι) → List (Node (List Step))
  | _, _, [] => []
  | index, bodySeen, child :: rest =>
      labelPaths (path ++ [stepTo inBlock index bodySeen child]) child
        :: labelChildren path inBlock (index + 1) (bodySeen || child.isBlock) rest

end

/-- Adds a node at the end of a block. -/
def push (child : Node ι) (block : Node ι) : Node ι :=
  block.withChildren (block.children ++ [child])

/-- Adds a node at the front of a block. -/
def unshift (child : Node ι) (block : Node ι) : Node ι :=
  block.withChildren (child :: block.children)

end Node

/-- Trees by name. -/
abbrev Forest := OrderedMap String Tree

/-- A place in a forest. -/
structure Location where
  tree : String
  path : List Step := []
deriving Repr, DecidableEq

namespace Forest

/-- The node at a place. -/
def at? (forest : Forest) (location : Location) : Option Tree :=
  (forest.get? location.tree).bind fun tree => tree.at? location.path

/-- Changes the node at a place. -/
def modify (forest : Forest) (location : Location) (f : Tree → Tree) : Forest :=
  match forest.get? location.tree with
  | some tree => forest.insert location.tree (tree.modifyAt f location.path)
  | none => forest

/-- Whether a place is in the contents of another one, or is that place. -/
def isWithin (inner outer : Location) : Bool :=
  inner.tree == outer.tree && outer.path.isPrefixOf inner.path

/-- Moves the contents of a block to another block, whose own contents are dropped.  A source
    inside the target is dropped with them. -/
def moveContents (forest : Forest) (source target : Location) : Forest :=
  let nodes := ((forest.at? source).map Node.children).getD []
  if source = target then forest.modify source (Node.withChildren · [])
  else
    let moved := forest.modify target (Node.withChildren · nodes)
    if isWithin source target then moved else moved.modify source (Node.withChildren · [])

end Forest

end Stencil
