import Stencil.Node

/-! # The store — what blocks hold while templates are composed

    A block may stand in several places at once, and its contents may change
    after it was placed: an override moves nodes into it or out of it, and an
    include puts content into it.  So a block is written into trees with its
    identity and the contents it has then, and the store keeps the current
    state of every block that has changed since.  A block without an entry is
    as it was written. -/

namespace Stencil

/-- The identity of a block, or of another node, during composition. -/
abbrev BlockId := Nat

/-- A node of a tree during composition. -/
abbrev Draft := Node BlockId

/-- The current states of blocks with contents of type `α`. -/
structure Store (α : Type) where
  /-- The next identity that no node has. -/
  next : BlockId := 0
  /-- The blocks that have changed since they were written into a tree. -/
  current : OrderedMap BlockId (Block BlockId α) := .empty
deriving Repr, DecidableEq

namespace Store

variable {α : Type}

/-- The current state of a block. -/
def read (store : Store α) (block : Block BlockId α) : Block BlockId α :=
  (store.current.get? block.id).getD block

/-- Records the state of a block. -/
def write (store : Store α) (block : Block BlockId α) : Store α :=
  { store with current := store.current.insert block.id block }

/-- Gives a block other contents. -/
def setNodes (store : Store α) (block : Block BlockId α) (nodes : List α) : Store α :=
  store.write { store.read block with nodes }

/-- The store after an identity has been given away. -/
def taken (store : Store α) : Store α := { store with next := store.next + 1 }

/-! ## Trees in their current state -/

mutual

/-- Puts other blocks in the place of those that have a substitute. -/
def substitute (other : BlockId → Option (Block BlockId Draft)) : Draft → Draft
  | .make own line kind children =>
      match kind with
      | .block id props =>
          match other id with
          | some block => .ofBlock block
          | none => .make own line (.block id props) (substituteAll other children)
      | kind => .make own line kind (substituteAll other children)

/-- Puts other blocks in the place of those that have a substitute, in every tree of a list. -/
def substituteAll (other : BlockId → Option (Block BlockId Draft)) : List Draft → List Draft
  | [] => []
  | node :: nodes => substitute other node :: substituteAll other nodes

end

/-- Brings every block of a tree to its current state; the fuel bounds how many changed blocks
    lie inside one another.  A block that lies inside itself is cut off when the fuel is used up,
    where a walk through such a tree does not come to an end. -/
def resolveWith (store : Store Draft) : Nat → Draft → Draft
  | 0, node => node
  | fuel + 1, node =>
      substitute (fun id => (store.current.get? id).map fun block =>
        { block with nodes := block.nodes.map (resolveWith store fuel) }) node

/-- Brings every block of a tree to its current state. -/
def resolve (store : Store Draft) (node : Draft) : Draft :=
  store.resolveWith (store.current.size + 1) node

/-- Brings a block and everything in it to its current state. -/
def resolveBlock (store : Store Draft) (block : Block BlockId Draft) : Block BlockId Draft :=
  let current := store.read block
  { current with nodes := current.nodes.map store.resolve }

end Store

end Stencil
