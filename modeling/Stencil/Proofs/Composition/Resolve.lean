import Stencil.Proofs.Node.Preorder

/-! # Current trees — what stands in the place of a block

    Bringing a tree to its current state puts the recorded state of a block in
    its place and leaves every other node where it is. -/

namespace Stencil.Store

variable {other : BlockId → Option (Block BlockId Draft)}

mutual

theorem substitute_none : ∀ node : Draft, substitute (fun _ => none) node = node
  | .make own line kind children => by
      cases kind <;> simp only [substitute, substituteAll_none children]

theorem substituteAll_none : ∀ nodes : List Draft, substituteAll (fun _ => none) nodes = nodes
  | [] => rfl
  | node :: nodes => by rw [substituteAll, substitute_none node, substituteAll_none nodes]

end

/-- Where no block has changed, every tree is as it was written. -/
theorem resolve_of_empty {store : Store Draft} (h : store.current = .empty) (node : Draft) :
    store.resolve node = node := by
  unfold resolve resolveWith
  rw [h]
  exact substitute_none node

theorem substituteAll_eq_map (nodes : List Draft) :
    substituteAll other nodes = nodes.map (substitute other) := by
  induction nodes with
  | nil => rfl
  | cons node nodes ih => rw [substituteAll, ih, List.map_cons]

/-- A node without a substitute stays, and what is below it is brought up to date. -/
theorem substitute_of_none {node : Draft} {id : BlockId} (hid : node.id? = some id)
    (h : other id = none) :
    substitute other node = node.withChildren (substituteAll other node.children) := by
  obtain ⟨own, line, kind, children⟩ := node
  cases kind with
  | block block props =>
      have hb : block = id := Option.some.inj hid
      subst hb
      simp only [substitute, h, Node.withChildren, Node.children]
  | _ => rfl

/-- A block with a substitute makes place for it. -/
theorem substitute_of_some {block state : Block BlockId Draft} (h : other block.id = some state) :
    substitute other (.ofBlock block) = .ofBlock state := by
  simp only [Node.ofBlock, Node.mk, substitute, h]

/-- What a block is replaced by when a tree is brought up to date. -/
def currentWith (store : Store Draft) (fuel : Nat) (id : BlockId) : Option (Block BlockId Draft) :=
  (store.current.get? id).map fun block =>
    { block with nodes := block.nodes.map (resolveWith store fuel) }

theorem map_resolveWith_zero (store : Store Draft) (nodes : List Draft) :
    nodes.map (store.resolveWith 0) = nodes :=
  List.map_id' nodes

theorem map_resolveWith_succ (store : Store Draft) (fuel : Nat) (nodes : List Draft) :
    nodes.map (store.resolveWith (fuel + 1)) = substituteAll (store.currentWith fuel) nodes := by
  rw [substituteAll_eq_map]
  rfl

end Stencil.Store
