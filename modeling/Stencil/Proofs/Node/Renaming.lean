import Stencil.Proofs.Node.Lineless

/-! # Trees with other identities

    Where identities of a tree are exchanged for others, no two of them for one,
    the search for the place of included content takes the same way, the nodes of
    the tree are found in the same order, and the finished tree is the same. -/

namespace Stencil

namespace Node

variable {ι κ : Type}

theorem finished_relabel (f : ι → κ) (node : Node ι) :
    (node.relabel f).finished = node.finished := by
  have hmake : ∀ {ι : Type} own line (kind : Kind ι) children,
      (make own line kind children).finished
        = mk line (kind.relabel fun _ => ()) (children.map finished) := by
    intro ι own line kind children
    rw [finished, fold, foldList_eq_map]
    rfl
  induction node using induct with
  | h own line kind children ih =>
      have hkind : (kind.relabel f).relabel (fun _ => ()) = kind.relabel fun _ => () := by
        cases kind <;> rfl
      have hchildren : (children.map (relabel f)).map finished = children.map finished := by
        rw [List.map_map]
        exact List.map_congr_left ih
      rw [relabel_make, hmake, hmake, hkind, hchildren]

/-! ## The include point -/

theorem contains_map {α β : Type} [BEq α] [LawfulBEq α] [BEq β] [LawfulBEq β] {f : α → β}
    (hf : Function.Injective f) (values : List α) (value : α) :
    (values.map f).contains (f value) = values.contains value := by
  rw [Bool.eq_iff_iff, List.contains_iff_mem, List.contains_iff_mem, List.mem_map]
  simp [hf.eq_iff]

section IncludePoint

variable [DecidableEq ι] [DecidableEq κ] {f : ι → κ}

/-- What a search has come to, under other names. -/
def Found.relabel (f : ι → κ) (found : Found ι) : Found κ :=
  ⟨found.block.relabel f, found.entered.map f⟩

mutual

theorem searchNode_relabel (hf : Function.Injective f) (entered : List ι) : ∀ node : Node ι,
    searchNode (entered.map f) (node.relabel f)
      = (searchNode entered node).map (Found.relabel f)
  | make own line kind children => by
      rw [relabel_make]
      cases kind with
      | block id props =>
          simp only [Kind.relabel, searchNode, contains_map hf]
          split
          · rfl
          · split
            · rfl
            · have hstart : Found.entering (entered.map f)
                  (⟨f id, line, props, children.map (Node.relabel f)⟩ : Block κ (Node κ))
                    = Found.relabel f (.entering entered ⟨id, line, props, children⟩) := rfl
              rw [hstart, searchNodes_relabel hf]
              rfl
      | _ =>
          simp only [Kind.relabel, searchNode]
          rw [searchBody_relabel hf entered children, apply_ite (Option.map (Found.relabel f))]
          rfl

theorem searchBody_relabel (hf : Function.Injective f) (entered : List ι) : ∀ nodes : List (Node ι),
    searchBody (entered.map f) (nodes.map (Node.relabel f))
      = (searchBody entered nodes).map (Found.relabel f)
  | [] => rfl
  | make own line kind children :: rest => by
      rw [List.map_cons, relabel_make]
      cases kind with
      | block id props =>
          simp only [Kind.relabel, searchBody, List.isEmpty_map, contains_map hf]
          split
          · rfl
          · have hstart : Found.entering (entered.map f)
                (⟨f id, line, props, children.map (Node.relabel f)⟩ : Block κ (Node κ))
                  = Found.relabel f (.entering entered ⟨id, line, props, children⟩) := rfl
            rw [hstart, searchNodes_relabel hf]
            rfl
      | _ =>
          simp only [Kind.relabel, searchBody]
          exact searchBody_relabel hf entered rest

theorem searchNodes_relabel (hf : Function.Injective f) (found : Found ι) : ∀ nodes : List (Node ι),
    searchNodes (found.relabel f) (nodes.map (Node.relabel f))
      = (searchNodes found nodes).relabel f
  | [] => by simp only [List.map_nil, searchNodes]
  | node :: nodes => by
      rw [List.map_cons, searchNodes, searchNodes,
        show (found.relabel f).entered = found.entered.map f from rfl, searchNode_relabel hf]
      cases searchNode found.entered node with
      | none => exact searchNodes_relabel hf found nodes
      | some next =>
          simp only [Option.map_some, show (next.relabel f).block.props = next.block.props from rfl]
          split
          · rfl
          · exact searchNodes_relabel hf next nodes

end

theorem includePoint_relabel (hf : Function.Injective f) (root : Block ι (Node ι)) :
    includePoint (root.relabel f) = (includePoint root).relabel f :=
  congrArg Found.block (searchNodes_relabel hf (.entering [] root) root.nodes)

end IncludePoint

theorem id?_relabel (f : ι → κ) (node : Node ι) : (node.relabel f).id? = node.id?.map f := by
  obtain ⟨own, line, kind, children⟩ := node
  rw [relabel_make]
  cases kind <;> rfl

theorem preorder_relabel (f : ι → κ) (node : Node ι) :
    (node.relabel f).preorder = node.preorder.map (relabel f) := by
  induction node using induct with
  | h own line kind children ih =>
      have hchildren : (children.map (relabel f)).flatMap preorder
          = (children.flatMap preorder).map (relabel f) := by
        rw [List.flatMap_map, List.map_flatMap]
        simp only [List.flatMap, List.map_congr_left ih]
      rw [preorder_eq, preorder_eq, relabel_make, preorderAll_eq_flatMap,
        preorderAll_eq_flatMap, List.map_cons, relabel_make]
      exact congrArg _ hchildren

end Node

theorem identities_relabel (f : BlockId → BlockId) (root : Draft) :
    identities (root.relabel f) = (identities root).map (Option.map f) := by
  rw [identities, identities, Node.walk_eq_preorder, Node.walk_eq_preorder,
    Node.preorder_relabel, List.map_map, List.map_map]
  exact List.map_congr_left fun node _ => Node.id?_relabel f node

end Stencil
