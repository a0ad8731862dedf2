import Stencil.Proofs.Node.Blocks
import Stencil.Proofs.Node.Preorder
import Stencil.Proofs.Registry.Footprint

/-! # Origins — which nodes a tree is made of

    What stands in a tree is told by the identities of its nodes, blocks and
    others alike.  `MadeOf K` says that they are all from a collection `K`; here
    it is followed through what is done to trees, blocks and definitions.  The
    store is closed under a collection when the recorded state of each of its
    blocks is made of nodes from it (`Closed`): then so is every tree of such
    nodes that is brought to its current state (`Closed.resolveBlock`). -/

namespace Stencil

variable {K : BlockId → Prop}

/-- Every node of a tree is from a collection. -/
def Node.MadeOf (K : BlockId → Prop) (node : Draft) : Prop :=
  ∀ part ∈ node.preorder, ∀ id, part.id? = some id → K id

namespace Node

theorem madeOf_make {own : Option BlockId} {line : Int} {kind : Kind BlockId}
    {children : List Draft} :
    (make own line kind children).MadeOf K
      ↔ (∀ id, (make own line kind children).id? = some id → K id)
        ∧ ∀ child ∈ children, child.MadeOf K := by
  rw [MadeOf, preorder_eq, List.forall_mem_cons, preorderAll_eq_flatMap]
  refine and_congr_right fun _ => ?_
  simp only [Node.children, List.forall_mem_flatMap, MadeOf]

theorem madeOf_ofBlock {block : Block BlockId Draft} :
    (ofBlock block).MadeOf K ↔ K block.id ∧ ∀ node ∈ block.nodes, node.MadeOf K := by
  rw [ofBlock, mk, madeOf_make]
  refine and_congr_left fun _ => ?_
  simp [id?]

theorem MadeOf.withProps {block : Block BlockId Draft} (h : (ofBlock block).MadeOf K)
    (props : BlockProps) : (ofBlock { block with props }).MadeOf K := by
  obtain ⟨hid, hnodes⟩ := madeOf_ofBlock.mp h
  exact madeOf_ofBlock.mpr ⟨hid, hnodes⟩

theorem inherited_madeOf : Inherited (MadeOf K) where
  child := fun h => (madeOf_make.mp h).2
  block := fun h => madeOf_ofBlock.mpr
    ⟨(madeOf_make.mp h).1 _ rfl, (madeOf_make.mp h).2⟩

/-- With its identities moved up to where all of them are in the collection, any tree is made of
    its nodes. -/
theorem madeOf_shifted {offset : BlockId} (h : ∀ id, offset ≤ id → K id) (node : Draft) :
    (Registry.shifted offset node).MadeOf K := by
  induction node using induct with
  | h own line kind children ih =>
      rw [Registry.shifted, relabel_make, madeOf_make]
      refine ⟨fun id hid => ?_, List.forall_mem_map.mpr ih⟩
      have hmoved : ∃ before, id = offset + before := by
        cases kind with
        | block block props => exact ⟨block, (Option.some.inj hid).symm⟩
        | _ =>
            obtain ⟨before, -, hbefore⟩ := Option.map_eq_some_iff.mp hid
            exact ⟨before, hbefore.symm⟩
      obtain ⟨before, rfl⟩ := hmoved
      exact h _ (Nat.le_add_right _ _)

theorem madeOf_shiftedBlock {offset : BlockId} (h : ∀ id, offset ≤ id → K id)
    (block : Block BlockId Draft) : (ofBlock (Registry.shiftedBlock offset block)).MadeOf K :=
  madeOf_ofBlock.mpr ⟨h _ (Nat.le_add_right _ _),
    List.forall_mem_map.mpr fun node _ => madeOf_shifted h node⟩

/-- Putting in blocks that are made of nodes from the collection keeps a tree so. -/
theorem madeOf_substitute {other : BlockId → Option (Block BlockId Draft)}
    (hother : ∀ id state, K id → other id = some state → (ofBlock state).MadeOf K)
    (node : Draft) : node.MadeOf K → (Store.substitute other node).MadeOf K := by
  induction node using induct with
  | h own line kind children ih =>
      intro hnode
      obtain ⟨hid, hchildren⟩ := madeOf_make.mp hnode
      have hmapped : ∀ child ∈ children.map (Store.substitute other), child.MadeOf K :=
        List.forall_mem_map.mpr fun child hchild => ih child hchild (hchildren child hchild)
      cases kind with
      | block block props =>
          cases hstate : other block with
          | some state =>
              rw [Store.substitute_block_some hstate]
              exact hother block state (hid block rfl) hstate
          | none =>
              rw [Store.substitute_block_none hstate]
              exact madeOf_make.mpr ⟨hid, hmapped⟩
      | _ =>
          rw [Store.substitute_make fun _ _ => rfl]
          exact madeOf_make.mpr ⟨hid, hmapped⟩

end Node

open Node

/-! ## Stores -/

namespace Store

/-- The collection takes in all new identities, and what is recorded of its blocks is made of nodes
    from it. -/
structure Closed (K : BlockId → Prop) (store : Store Draft) : Prop where
  fresh : ∀ id, store.next ≤ id → K id
  state : ∀ id block, K id → store.current.get? id = some block → (ofBlock block).MadeOf K

variable {store : Store Draft} {block : Block BlockId Draft}

theorem Closed.taken (h : store.Closed K) : store.taken.Closed K :=
  ⟨fun id hid => h.fresh id (Nat.le_of_succ_le hid), h.state⟩

theorem Closed.read (h : store.Closed K) (hblock : (ofBlock block).MadeOf K) :
    (ofBlock (store.read block)).MadeOf K := by
  cases hstate : store.current.get? block.id with
  | none => rwa [read_of_unrecorded hstate]
  | some state =>
      rw [read_of_current hstate]
      exact h.state _ _ (madeOf_ofBlock.mp hblock).1 hstate

theorem Closed.write (h : store.Closed K) (hblock : (ofBlock block).MadeOf K) :
    (store.write block).Closed K := by
  refine ⟨h.fresh, fun id state hid hstate => ?_⟩
  rw [current_write] at hstate
  split at hstate
  · cases hstate
    exact hblock
  · exact h.state id state hid hstate

/-- A block may be given other contents from the collection. -/
theorem Closed.setNodes (h : store.Closed K) (hblock : (ofBlock block).MadeOf K)
    {nodes : List Draft} (hnodes : ∀ node ∈ nodes, node.MadeOf K) :
    (store.setNodes block nodes).Closed K :=
  h.write (madeOf_ofBlock.mpr ⟨(madeOf_ofBlock.mp (h.read hblock)).1, hnodes⟩)

theorem Closed.resolveWith (h : store.Closed K) (fuel : Nat) :
    ∀ node : Draft, node.MadeOf K → (store.resolveWith fuel node).MadeOf K := by
  induction fuel with
  | zero => exact fun _ => id
  | succ fuel ih =>
      refine fun node => madeOf_substitute (fun id state hid hstate => ?_) node
      obtain ⟨block, hblock, rfl⟩ := Option.map_eq_some_iff.mp hstate
      obtain ⟨hown, hnodes⟩ := madeOf_ofBlock.mp (h.state id block hid hblock)
      exact madeOf_ofBlock.mpr
        ⟨hown, List.forall_mem_map.mpr fun node hnode => ih node (hnodes node hnode)⟩

/-- **What stands in a current tree** is from the collection when the tree was and the store is
    closed. -/
theorem Closed.resolveBlock (h : store.Closed K) (hblock : (ofBlock block).MadeOf K) :
    (ofBlock (store.resolveBlock block)).MadeOf K := by
  obtain ⟨hid, hnodes⟩ := madeOf_ofBlock.mp (h.read hblock)
  exact madeOf_ofBlock.mpr
    ⟨hid, List.forall_mem_map.mpr fun node hnode => h.resolveWith _ node (hnodes node hnode)⟩

end Store

/-! ## Definitions -/

/-- The block of a definition and its merge data are made of nodes from a collection. -/
structure Definition.MadeOf (K : BlockId → Prop) (definition : Definition Draft) : Prop where
  block : (ofBlock definition.block).MadeOf K
  head : ∀ node ∈ definition.head, node.MadeOf K
  tail : ∀ node ∈ definition.tail, node.MadeOf K

namespace Registry

open Store

variable {store : Store Draft} {registry : Registry Draft} {block : Block BlockId Draft}
  {previous : Definition Draft}

theorem madeOf_initial (h : (ofBlock block).MadeOf K) (owner : Nat) :
    (initial block owner).MadeOf K := by
  have hnodes := (madeOf_ofBlock.mp h).2
  unfold initial
  cases block.props.mode with
  | append => exact ⟨h, nofun, hnodes⟩
  | prepend => exact ⟨h, hnodes, nofun⟩
  | replace => exact ⟨h, nofun, nofun⟩

theorem madeOf_sequential {id : BlockId} {existing : List Draft} (hid : K id)
    (hprevious : previous.MadeOf K) (hexisting : ∀ node ∈ existing, node.MadeOf K)
    (hblock : (ofBlock block).MadeOf K) (owner : Nat) :
    (sequential id previous existing block owner).MadeOf K := by
  have hnodes := (madeOf_ofBlock.mp hblock).2
  -- the merge data is kept unless the definition replaces
  have hwraps : ∀ {nodes : List Draft}, (∀ node ∈ nodes, node.MadeOf K) →
      ∀ node ∈ if (previous.mode != .replace) = true then nodes else [], node.MadeOf K := by
    intro nodes h
    split
    · exact h
    · exact nofun
  unfold sequential merged
  cases block.props.mode with
  | append =>
      have hback := List.forall_mem_append.mpr ⟨hprevious.tail, hnodes⟩
      exact ⟨madeOf_ofBlock.mpr ⟨hid, List.forall_mem_append.mpr ⟨hexisting, hnodes⟩⟩,
        hwraps hprevious.head, hwraps hback⟩
  | prepend =>
      have hfront := List.forall_mem_append.mpr ⟨hnodes, hprevious.head⟩
      exact ⟨madeOf_ofBlock.mpr ⟨hid, List.forall_mem_append.mpr ⟨hnodes, hexisting⟩⟩,
        hwraps hfront, hwraps hprevious.tail⟩
  | replace => exact ⟨madeOf_ofBlock.mpr ⟨hid, hnodes⟩, nofun, nofun⟩

theorem madeOf_inherited {kept : Block BlockId Draft} (hprevious : previous.MadeOf K)
    (hkept : (ofBlock kept).MadeOf K) (hblock : (ofBlock block).MadeOf K) (owner : Nat) :
    (inherited previous kept block owner).MadeOf K := by
  have hnodes := (madeOf_ofBlock.mp hblock).2
  have hfront := List.forall_mem_append.mpr ⟨hprevious.head, hnodes⟩
  have hback := List.forall_mem_append.mpr ⟨hnodes, hprevious.tail⟩
  have hfilled : (ofBlock { kept with
      nodes := previous.head ++ block.nodes ++ previous.tail }).MadeOf K :=
    madeOf_ofBlock.mpr
      ⟨(madeOf_ofBlock.mp hkept).1, List.forall_mem_append.mpr ⟨hfront, hprevious.tail⟩⟩
  unfold inherited
  cases previous.mode with
  | replace => exact ⟨hkept, nofun, nofun⟩
  | append =>
      cases block.props.mode with
      | append => exact ⟨hfilled, hprevious.head, hback⟩
      | prepend => exact ⟨hfilled, hfront, hprevious.tail⟩
      | replace => exact ⟨hfilled, nofun, nofun⟩
  | prepend =>
      cases block.props.mode with
      | append => exact ⟨hfilled, hprevious.head, hback⟩
      | prepend => exact ⟨hfilled, hfront, hprevious.tail⟩
      | replace => exact ⟨hfilled, nofun, nofun⟩

theorem madeOf_redefinition (h : store.Closed K) (hprevious : previous.MadeOf K)
    (hblock : (ofBlock block).MadeOf K) (owner : Nat) :
    (redefinition store previous block owner).MadeOf K := by
  have hkept := h.read hprevious.block
  rw [redefinition]
  split
  · exact madeOf_sequential (h.fresh _ (Nat.le_refl _)) hprevious (madeOf_ofBlock.mp hkept).2
      hblock owner
  · exact madeOf_inherited hprevious hkept hblock owner

theorem closed_emptyUnless (h : store.Closed K) (hblock : (ofBlock block).MadeOf K)
    (result : BlockId) : (emptyUnless result store block).Closed K := by
  rw [emptyUnless]
  split
  · exact h
  · exact h.setNodes hblock (List.forall_mem_nil _)

/-- **A definition moves nodes and makes no others** but the block it may need. -/
theorem define_madeOf (h : store.Closed K)
    (hregistry : ∀ definition ∈ registry.values, definition.MadeOf K)
    (hblock : (ofBlock block).MadeOf K) (name : String) (owner : Nat) :
    let defined := registry.define store name block owner
    defined.store.Closed K ∧ store.next ≤ defined.store.next
      ∧ (∀ definition ∈ defined.registry.values, definition.MadeOf K)
      ∧ (ofBlock defined.block).MadeOf K := by
  have hread := h.read hblock
  cases hname : registry.get? name with
  | none =>
      rw [define_of_none hname]
      refine ⟨h.write hread, Nat.le_refl _, fun definition hmem => ?_, hread⟩
      rcases OrderedMap.mem_values_insert hmem with rfl | hmem
      · exact madeOf_initial hread owner
      · exact hregistry definition hmem
  | some previous =>
      have hprevious := hregistry previous (OrderedMap.mem_values_of_get? hname)
      have hdefinition := madeOf_redefinition h hprevious hread owner
      rw [define_of_some hname]
      generalize redefinition store previous (store.read block) owner = definition at hdefinition
      have hwritten := h.taken.write hdefinition.block
      have hemptied := closed_emptyUnless
        (closed_emptyUnless hwritten hprevious.block definition.block.id) hread
        definition.block.id
      refine ⟨hemptied, ?_, fun other hmem => ?_, hdefinition.block⟩
      · rw [emptyUnless_next, emptyUnless_next]
        exact Nat.le_succ _
      · rcases OrderedMap.mem_values_insert hmem with rfl | hmem
        · exact hdefinition
        · exact hregistry other hmem

/-! ## Snapshots -/

/-- A copy is made of new nodes, whatever the registry is made of. -/
theorem snapshot_madeOf (h : store.Closed K) (registry : Registry Draft) :
    (registry.snapshot store).1.Closed K
      ∧ ∀ definition ∈ (registry.snapshot store).2.values, definition.MadeOf K := by
  refine ⟨⟨fun id hid => ?_, fun id block hid hstate => ?_⟩, fun definition hmem => ?_⟩
  · exact h.fresh id (Nat.le_trans (Nat.le_add_right _ _) hid)
  · replace hstate : (store.current.entries ++ (recorded store registry).map fun entry =>
        (store.next + entry.1, shiftedBlock store.next entry.2)).lookup id = some block := hstate
    rw [List.lookup_append, Option.or_eq_some_iff] at hstate
    rcases hstate with hold | ⟨-, hnew⟩
    · exact h.state id block hid hold
    · obtain ⟨before, after, hentries, -⟩ := List.lookup_eq_some_iff.mp hnew
      have hmem := hentries ▸ List.mem_append_right before (List.mem_cons_self (l := after))
      obtain ⟨entry, -, hentry⟩ := List.mem_map.mp hmem
      cases hentry
      exact madeOf_shiftedBlock h.fresh entry.2
  · obtain ⟨entry, hentry, rfl⟩ := List.mem_map.mp hmem
    obtain ⟨original, -, rfl⟩ := List.mem_map.mp hentry
    exact ⟨madeOf_shiftedBlock h.fresh _,
      List.forall_mem_map.mpr fun node _ => madeOf_shifted h.fresh node,
      List.forall_mem_map.mpr fun node _ => madeOf_shifted h.fresh node⟩

end Registry

end Stencil
