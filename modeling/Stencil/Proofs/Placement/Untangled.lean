import Stencil.Proofs.Placement.Spread
import Stencil.Proofs.Registry.Footprint

/-! # Untangled blocks — trees that come to an end

    A tree is brought to its current state with fuel for the blocks that lie
    inside one another.  Where no block lies inside itself the fuel is enough: a
    block ranks above those inside it (`Untangled.rank_lt`), and fuel beyond the
    ranks in a tree changes nothing (`Untangled.resolveWith_eq`).  So the tree
    that a store shows for a block does not depend on how many other blocks it
    records (`Untangled.resolve_ofBlock`, `Untangled.map_resolve`). -/

namespace Stencil

open Registry Placement Relation

namespace Store

/-- No block that is reached from some blocks lies inside itself. -/
def Untangled (store : Store Draft) (roots : List BlockId) : Prop :=
  ∀ id, store.Reaches roots id → ¬ TransGen (Below (inside store)) id id

/-- How many recorded blocks lie in and inside a block. -/
noncomputable def rank (store : Store Draft) (id : BlockId) : Nat :=
  height (inside store) store.current.keys.toFinset id

variable {store other : Store Draft} {roots : List BlockId} {root : Block BlockId Draft}

theorem inside_of_current {id : BlockId} {block : Block BlockId Draft}
    (h : store.current.get? id = some block) :
    inside store id = block.nodes.flatMap blockIds := by
  rw [inside, h]

theorem Reaches.trans {more : List BlockId} {id : BlockId} (h : store.Reaches more id)
    (hroots : ∀ root ∈ more, store.Reaches roots root) : store.Reaches roots id := by
  induction h with
  | root hid => exact hroots _ hid
  | down _ hinner ih => exact ih.down hinner

theorem Untangled.of_reaches {more : List BlockId} (h : store.Untangled roots)
    (hroots : ∀ root ∈ more, store.Reaches roots root) : store.Untangled more :=
  fun id hid => h id (hid.trans hroots)

/-- Where less is inside the blocks there is no new tangle. -/
theorem Untangled.anti (h : other.Untangled roots)
    (hinside : ∀ id, inside store id ⊆ inside other id) : store.Untangled roots := by
  intro id hid hcycle
  have hreached : other.Reaches roots id := by
    clear hcycle
    induction hid with
    | root hroot => exact .root hroot
    | down _ hinner ih => exact ih.down (hinside _ hinner)
  have hbelow : Below (inside store) ≤ Below (inside other) := fun outer _ hinner =>
    hinside outer hinner
  exact h id hreached (TransGen.mono hbelow _ _ hcycle)

/-- It can be computed that a store is untangled, given a rank for its blocks. -/
theorem untangled_of_rank (rank : BlockId → Nat) (h : ∀ entry ∈ store.current.entries,
    ∀ inner ∈ entry.2.nodes.flatMap blockIds, rank inner < rank entry.1) (roots : List BlockId) :
    store.Untangled roots := by
  have hbelow : ∀ outer inner, TransGen (Below (inside store)) outer inner →
      rank inner < rank outer := by
    intro outer inner hpath
    have hstep : ∀ id, ∀ inner ∈ inside store id, rank inner < rank id := by
      intro id inner hinner
      rw [inside] at hinner
      split at hinner
      · next block hblock =>
          obtain ⟨before, after, hentries, -⟩ := List.lookup_eq_some_iff.mp hblock
          exact h (id, block) (hentries ▸ List.mem_append_right _ List.mem_cons_self) inner hinner
      · cases hinner
    induction hpath with
    | single hinner => exact hstep _ _ hinner
    | tail _ hinner ih => exact Nat.lt_trans (hstep _ _ hinner) ih
  exact fun id _ hcycle => Nat.lt_irrefl _ (hbelow id id hcycle)

/-! ## Ranks -/

theorem rank_le (store : Store Draft) (id : BlockId) : store.rank id ≤ store.current.size := by
  refine Nat.le_trans (height_le _ id) (Nat.le_trans (List.toFinset_card_le _) ?_)
  rw [OrderedMap.keys, List.length_map, OrderedMap.size]

theorem rank_pos {id : BlockId} (h : (store.current.get? id).isSome) : 0 < store.rank id :=
  height_pos (List.mem_toFinset.mpr (OrderedMap.mem_keys h))

/-- Where something is inside, there is a recorded block. -/
theorem recorded_of_inside {id inner : BlockId} (h : inner ∈ inside store id) :
    (store.current.get? id).isSome := by
  rw [inside] at h
  split at h
  · next hblock => exact Option.isSome_iff_exists.mpr ⟨_, hblock⟩
  · cases h

theorem Untangled.rank_lt (h : store.Untangled roots) {id inner : BlockId}
    (hid : store.Reaches roots id) (hinner : inner ∈ inside store id) :
    store.rank inner < store.rank id :=
  height_lt (List.mem_toFinset.mpr (OrderedMap.mem_keys (recorded_of_inside hinner))) (h id hid)
    hinner

/-! ## Enough fuel -/

/-- The current state depends on what is put in for the blocks of the tree. -/
theorem substitute_congr {put put' : BlockId → Option (Block BlockId Draft)} {node : Draft}
    (h : ∀ id ∈ blockIds node, put' id = put id) : substitute put' node = substitute put node := by
  have hput : ∀ outer ∈ blockIds node, put' (id outer) = (put outer).map (Block.relabel id) := by
    intro outer houter
    rw [id, h outer houter]
    cases put outer with
    | none => rfl
    | some block => exact congrArg some (Block.relabel_id block).symm
  have hsame := substitute_relabel id node hput
  rwa [Node.relabel_id, Node.relabel_id] at hsame

theorem Untangled.resolveWith_succ (h : store.Untangled roots) (fuel : Nat) :
    ∀ node : Draft, (∀ id ∈ blockIds node, store.Reaches roots id ∧ store.rank id ≤ fuel) →
      store.resolveWith (fuel + 1) node = store.resolveWith fuel node := by
  induction fuel with
  | zero =>
      -- no block of the tree is recorded
      intro node hnode
      have hnone : ∀ id ∈ blockIds node, store.currentWith 0 id = none := by
        intro id hid
        refine Option.map_eq_none_iff.mpr (Option.not_isSome_iff_eq_none.mp fun hsome => ?_)
        exact Nat.not_le.mpr (rank_pos hsome) (hnode id hid).2
      exact (substitute_congr hnone).trans (substitute_none node)
  | succ fuel ih =>
      intro node hnode
      refine substitute_congr fun id hid => ?_
      cases hstate : store.current.get? id with
      | none => rfl
      | some block =>
          have hnodes : block.nodes.map (store.resolveWith (fuel + 1))
              = block.nodes.map (store.resolveWith fuel) := by
            refine List.map_congr_left fun child hchild => ih child fun inner hinner => ?_
            have hinside : inner ∈ inside store id := by
              rw [inside, hstate]
              exact List.mem_flatMap.mpr ⟨child, hchild, hinner⟩
            have hlt := h.rank_lt (hnode id hid).1 hinside
            have hle := (hnode id hid).2
            exact ⟨(hnode id hid).1.down hinside, by omega⟩
          rw [Option.map_some, Option.map_some, hnodes]

/-- **Fuel beyond the ranks of the blocks in a tree changes nothing.** -/
theorem Untangled.resolveWith_eq (h : store.Untangled roots) {fuel more : Nat} {node : Draft}
    (hnode : ∀ id ∈ blockIds node, store.Reaches roots id ∧ store.rank id ≤ fuel)
    (hle : fuel ≤ more) : store.resolveWith more node = store.resolveWith fuel node := by
  induction more, hle using Nat.le_induction with
  | base => rfl
  | succ more hle ih =>
      rw [h.resolveWith_succ more node fun id hid => ?_, ih]
      exact ⟨(hnode id hid).1, Nat.le_trans (hnode id hid).2 hle⟩

/-- The tree of a block is its current state around the trees of its nodes. -/
theorem Untangled.resolve_ofBlock (h : store.Untangled [root.id]) :
    store.resolve (.ofBlock root) = .ofBlock (store.resolveBlock root) := by
  cases hstate : store.current.get? root.id with
  | none =>
      unfold resolve resolveWith
      rw [resolveBlock, read_of_unrecorded hstate]
      exact substitute_block_none (Option.map_eq_none_iff.mpr hstate)
  | some state =>
      have hroot : store.Reaches [root.id] root.id := .root List.mem_cons_self
      have hnodes : state.nodes.map store.resolve
          = state.nodes.map (store.resolveWith store.current.size) := by
        refine List.map_congr_left fun node hnode => h.resolveWith_eq (fun id hid => ?_)
          (Nat.le_succ _)
        have hinside : id ∈ inside store root.id := by
          rw [inside, hstate]
          exact List.mem_flatMap.mpr ⟨node, hnode, hid⟩
        exact ⟨hroot.down hinside, rank_le store id⟩
      rw [resolveBlock, read_of_current hstate, hnodes]
      have hput : store.currentWith store.current.size root.id = some
          { state with nodes := state.nodes.map (store.resolveWith store.current.size) } := by
        rw [currentWith, hstate, Option.map_some]
      exact substitute_of_some hput

/-! ## Stores that agree -/

/-- Stores that agree on what is reached show the same trees with the same fuel. -/
theorem map_resolveWith_congr (hagree : ∀ id, store.Reaches roots id →
    other.current.get? id = store.current.get? id) (fuel : Nat) {nodes : List Draft}
    (hnodes : ∀ id ∈ nodes.flatMap blockIds, store.Reaches roots id) :
    nodes.map (other.resolveWith fuel) = nodes.map (store.resolveWith fuel) := by
  have hrelabel : ∀ nodes : List Draft, nodes.map (Node.relabel fun id => id) = nodes :=
    fun nodes => (List.map_congr_left fun node _ => Node.relabel_id node).trans (List.map_id _)
  have hstays : store.Relocates (fun id => id) (store.Reaches roots) other := by
    refine ⟨fun id hid inner hinner => hid.down hinner, fun id hid => (hagree id hid).trans ?_⟩
    cases store.current.get? id with
    | none => rfl
    | some block => rw [Option.map_some, Block.relabel_id]
  have hsame := hstays.map_resolveWith fuel nodes hnodes
  rwa [hrelabel, hrelabel] at hsame

/-- **Stores that agree on what is reached show the same trees**, when one of them is untangled
    and the other one records nearly as many blocks. -/
theorem Untangled.map_resolve (h : store.Untangled roots) (hagree : ∀ id, store.Reaches roots id →
      other.current.get? id = store.current.get? id)
    (hsize : store.current.size ≤ other.current.size + 1) {nodes : List Draft}
    (hnodes : ∀ id ∈ nodes.flatMap blockIds, store.Reaches roots id) :
    nodes.map other.resolve = nodes.map store.resolve := by
  have hfuel : ∀ more, store.current.size ≤ more →
      nodes.map (store.resolveWith more) = nodes.map (store.resolveWith store.current.size) := by
    intro more hle
    refine List.map_congr_left fun node hnode => h.resolveWith_eq (fun id hid => ?_) hle
    exact ⟨hnodes id (List.mem_flatMap.mpr ⟨node, hnode, hid⟩), rank_le store id⟩
  calc nodes.map other.resolve
      = nodes.map (store.resolveWith (other.current.size + 1)) :=
        map_resolveWith_congr hagree _ hnodes
    _ = nodes.map (store.resolveWith store.current.size) := hfuel _ hsize
    _ = nodes.map store.resolve := (hfuel _ (Nat.le_succ _)).symm

end Store

end Stencil
