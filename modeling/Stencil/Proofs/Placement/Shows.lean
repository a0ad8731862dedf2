import Mathlib.Data.List.Perm.Basic
import Stencil.Proofs.Composition.Resolve

/-! # What nodes show — own nodes and blocks that stand in for others

    A list of drafts shows nodes of its own, which stay as they are written, and
    blocks, for which the state that is recorded at the end stands in.  `Shows`
    says which ones: whatever the substitutes are, the identities in the
    substituted list are those of its own nodes and those of the substitutes.
    The order does not matter for whether a node stands in two places. -/

namespace Stencil.Placement

open Store

/-- The identities of what stands in for a block. -/
def substituteIds (other : BlockId → Option (Block BlockId Draft)) (id : BlockId) :
    List (Option BlockId) :=
  match other id with
  | some state => some state.id :: Node.ids state.nodes
  | none => []

/-- With substitutes for the given blocks and none for the given nodes, a list of drafts shows
    the nodes and the substitutes. -/
def Shows (nodes : List Draft) (plain blocks : List BlockId) : Prop :=
  ∀ other : BlockId → Option (Block BlockId Draft), (∀ id ∈ plain, other id = none) →
    (∀ id ∈ blocks, (other id).isSome) →
      (Node.ids (substituteAll other nodes)).Perm
        (plain.map some ++ blocks.flatMap (substituteIds other))

theorem ids_substituteAll_append (other : BlockId → Option (Block BlockId Draft))
    (nodes more : List Draft) :
    Node.ids (substituteAll other (nodes ++ more))
      = Node.ids (substituteAll other nodes) ++ Node.ids (substituteAll other more) := by
  simp only [substituteAll_eq_map, List.map_append, Node.ids_append]

theorem shows_nil : Shows [] [] [] := fun _ _ _ => .refl _

/-- A block shows what stands in for it. -/
theorem shows_block (block : Block BlockId Draft) : Shows [.ofBlock block] [] [block.id] := by
  intro other _ hblocks
  obtain ⟨state, hstate⟩ := Option.isSome_iff_exists.mp (hblocks block.id (by simp))
  rw [substituteAll_eq_map, List.map_singleton, substitute_of_some hstate, Node.ids_singleton]
  simp only [List.map_nil, List.nil_append, List.flatMap_cons, List.flatMap_nil, List.append_nil,
    substituteIds, hstate]
  exact .refl _

section

variable {nodes more : List Draft} {plain plain' blocks blocks' : List BlockId}

theorem Shows.perm (h : Shows nodes plain blocks) (hnodes : more.Perm nodes) :
    Shows more plain blocks := by
  intro other hplain hblocks
  refine List.Perm.trans ?_ (h other hplain hblocks)
  simp only [Node.ids, Node.preorderAll_eq_flatMap, substituteAll_eq_map]
  exact ((hnodes.map _).flatMap_right _).map _

theorem Shows.append (h : Shows nodes plain blocks) (hmore : Shows more plain' blocks') :
    Shows (nodes ++ more) (plain ++ plain') (blocks ++ blocks') := by
  intro other hplain hblocks
  have hfirst := h other (fun id hid => hplain id (List.mem_append_left _ hid))
    fun id hid => hblocks id (List.mem_append_left _ hid)
  have hsecond := hmore other (fun id hid => hplain id (List.mem_append_right _ hid))
    fun id hid => hblocks id (List.mem_append_right _ hid)
  rw [ids_substituteAll_append]
  refine (hfirst.append hsecond).trans (List.perm_iff_count.mpr fun id => ?_)
  simp only [List.map_append, List.flatMap_append, List.count_append]
  omega

/-- Nodes that are put below a new one show that one as well. -/
theorem Shows.wrap {node : Draft} {id : BlockId}
    (h : Shows (nodes ++ node.children) plain blocks) (hid : node.id? = some id) :
    Shows (nodes ++ [node]) (id :: plain) blocks := by
  intro other hplain hblocks
  have hkept := h other (fun id hid => hplain id (List.mem_cons_of_mem _ hid)) hblocks
  have hnode : Node.ids (substituteAll other [node])
      = some id :: Node.ids (substituteAll other node.children) := by
    rw [substituteAll_eq_map, List.map_singleton,
      substitute_of_none hid (hplain id List.mem_cons_self), Node.ids_singleton]
    obtain ⟨own, line, kind, children⟩ := node
    rw [← hid]
    rfl
  rw [ids_substituteAll_append] at hkept ⊢
  rw [hnode, List.map_cons, List.cons_append]
  exact List.perm_middle.trans (hkept.cons _)

/-- Several lists, one after another. -/
theorem Shows.flatMap {ι : Type} {items : List ι} {nodes : ι → List Draft}
    {plain blocks : ι → List BlockId}
    (h : ∀ item ∈ items, Shows (nodes item) (plain item) (blocks item)) :
    Shows (items.flatMap nodes) (items.flatMap plain) (items.flatMap blocks) := by
  induction items with
  | nil => exact shows_nil
  | cons item items ih =>
      simp only [List.flatMap_cons]
      exact (h item List.mem_cons_self).append (ih fun i hi => h i (List.mem_cons_of_mem _ hi))

end

end Stencil.Placement
