import Stencil.Composition.Compose

/-! # Preorder — a walk goes down before it goes on

    A walk keeps a stack of nodes and a bound on their number.  Here it is shown
    to list a node and then what is below each child, which is a recursion on
    the tree (`walk_eq_preorder`), and the identities met on the way are given
    the same form (`ids`). -/

namespace Stencil

namespace Node

variable {ι α : Type}

theorem foldList_eq_map (step : Option ι → Int → Kind ι → List α → α) (nodes : List (Node ι)) :
    foldList step nodes = nodes.map (fold step) := by
  induction nodes with
  | nil => rfl
  | cons node nodes ih => rw [foldList, ih, List.map_cons]

/-- The number of nodes of the trees on a stack. -/
def sizeAll : List (Node ι) → Nat
  | [] => 0
  | node :: nodes => node.size + sizeAll nodes

theorem sizeAll_append (nodes more : List (Node ι)) :
    sizeAll (nodes ++ more) = sizeAll nodes + sizeAll more := by
  induction nodes with
  | nil => rw [List.nil_append, sizeAll, Nat.zero_add]
  | cons node nodes ih => rw [List.cons_append, sizeAll, sizeAll, ih, Nat.add_assoc]

theorem size_make (own : Option ι) (line : Int) (kind : Kind ι) (children : List (Node ι)) :
    (make own line kind children).size = sizeAll children + 1 := by
  rw [size, fold, foldList_eq_map]
  induction children with
  | nil => rfl
  | cons node nodes ih =>
      rw [List.map_cons, List.foldr_cons, ih, sizeAll, Nat.add_assoc]
      rfl

mutual

/-- A node and every node below it, in document order. -/
def preorder : Node ι → List (Node ι)
  | make own line kind children => make own line kind children :: preorderAll children

/-- The nodes of a list and every node below them, in document order. -/
def preorderAll : List (Node ι) → List (Node ι)
  | [] => []
  | node :: nodes => preorder node ++ preorderAll nodes

end

theorem preorder_eq (node : Node ι) : node.preorder = node :: preorderAll node.children := by
  obtain ⟨own, line, kind, children⟩ := node
  simp only [preorder, Node.children]

theorem preorderAll_eq_flatMap (nodes : List (Node ι)) :
    preorderAll nodes = nodes.flatMap preorder := by
  induction nodes with
  | nil => rfl
  | cons node nodes ih => rw [preorderAll, ih, List.flatMap_cons]

theorem mem_preorderAll {nodes : List (Node ι)} {node part : Node ι} (hnode : node ∈ nodes)
    (hpart : part ∈ node.preorder) : part ∈ preorderAll nodes := by
  rw [preorderAll_eq_flatMap]
  exact List.mem_flatMap.mpr ⟨node, hnode, hpart⟩

theorem preorderAll_append (nodes more : List (Node ι)) :
    preorderAll (nodes ++ more) = preorderAll nodes ++ preorderAll more := by
  simp only [preorderAll_eq_flatMap, List.flatMap_append]

/-- With fuel for all its nodes, a stack is walked in document order. -/
theorem walkStack_eq_preorderAll {fuel : Nat} : ∀ {stack : List (Node ι)},
    sizeAll stack ≤ fuel → walkStack fuel stack = preorderAll stack := by
  induction fuel with
  | zero =>
      intro stack h
      cases stack with
      | nil => rfl
      | cons node stack =>
          -- a node counts, so no fuel is enough for it
          obtain ⟨own, line, kind, children⟩ := node
          rw [sizeAll, size_make] at h
          omega
  | succ fuel ih =>
      intro stack h
      cases stack with
      | nil => rfl
      | cons node stack =>
          obtain ⟨own, line, kind, children⟩ := node
          have hrest : sizeAll (children ++ stack) ≤ fuel := by
            rw [sizeAll, size_make] at h
            rw [sizeAll_append]
            omega
          show _ :: walkStack fuel (children ++ stack) = _
          rw [ih hrest, preorderAll_append, preorderAll, preorder, List.cons_append]

/-- A walk lists the nodes of a tree in document order. -/
theorem walk_eq_preorder (node : Node ι) : node.walk = node.preorder := by
  have hfuel : sizeAll [node] ≤ node.size := Nat.le_refl _
  rw [walk, walkStack_eq_preorderAll hfuel, preorderAll, preorderAll, List.append_nil]

/-- The identities of the nodes of a list of trees. -/
def ids (nodes : List (Node ι)) : List (Option ι) := (preorderAll nodes).map id?

theorem ids_append (nodes more : List (Node ι)) : ids (nodes ++ more) = ids nodes ++ ids more := by
  rw [ids, preorderAll_append, List.map_append, ids, ids]

theorem ids_singleton (node : Node ι) : ids [node] = node.id? :: ids node.children := by
  rw [ids, preorderAll, preorder_eq, preorderAll, List.append_nil, List.map_cons, ids]

end Node

theorem identities_eq (root : Draft) : identities root = root.id? :: Node.ids root.children := by
  rw [identities, Node.walk_eq_preorder, Node.preorder_eq, List.map_cons, Node.ids]

end Stencil
