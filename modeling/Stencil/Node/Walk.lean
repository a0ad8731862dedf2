import Stencil.Node

/-! # Walks and visits — every node in document order

    A walk lists a tree's nodes from a stack of nodes still to come.  A visit
    hands each node to the action for its kind and then visits its children.
    Both go through a node before its children, and through the children in
    document order. -/

namespace Stencil

/-- What is done at the nodes of each kind. -/
structure Visitor (ι : Type) (m : Type → Type) (β : Type) where
  /-- What is done at a node of a kind without an action of its own. -/
  default : Node ι → m β
  block : Node ι → m β := default
  tag : Node ι → m β := default
  mixin : Node ι → m β := default
  text : Node ι → m β := default
  literal : Node ι → m β := default
  filter : Node ι → m β := default
  comment : Node ι → m β := default
  blockComment : Node ι → m β := default
  doctype : Node ι → m β := default
  code : Node ι → m β := default
  each : Node ι → m β := default
  case : Node ι → m β := default
  when : Node ι → m β := default

/-- Does what a visitor does at a node of its kind. -/
def Visitor.dispatch {ι : Type} {m : Type → Type} {β : Type} (visitor : Visitor ι m β)
    (node : Node ι) : m β :=
  match node.kind with
  | .block _ _ => visitor.block node
  | .tag _ _ => visitor.tag node
  | .mixin _ _ _ => visitor.mixin node
  | .text _ => visitor.text node
  | .literal _ => visitor.literal node
  | .code _ _ _ => visitor.code node
  | .each _ _ _ => visitor.each node
  | .case _ => visitor.case node
  | .when _ => visitor.when node
  | .comment _ _ => visitor.comment node
  | .blockComment _ _ => visitor.blockComment node
  | .doctype _ => visitor.doctype node
  | .filter _ _ => visitor.filter node

namespace Node

variable {ι : Type}

/-- The nodes of the trees on a stack; the fuel bounds their number. -/
def walkStack : Nat → List (Node ι) → List (Node ι)
  | 0, _ => []
  | _ + 1, [] => []
  | fuel + 1, node :: stack => node :: walkStack fuel (node.children ++ stack)

/-- A node and every node below it. -/
def walk (node : Node ι) : List (Node ι) := walkStack node.size [node]

mutual

/-- Visits a node, then its children; the result is that of the node itself. -/
def visit {m : Type → Type} [Monad m] {β : Type} (visitor : Visitor ι m β) : Node ι → m β
  | make own line kind children => do
      let result ← visitor.dispatch (make own line kind children)
      visitAll visitor children
      return result

/-- Visits the nodes of a list. -/
def visitAll {m : Type → Type} [Monad m] {β : Type} (visitor : Visitor ι m β) :
    List (Node ι) → m Unit
  | [] => return
  | node :: nodes => do
      discard (visit visitor node)
      visitAll visitor nodes

end

end Node

end Stencil
