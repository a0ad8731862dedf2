import Stencil.Proofs.OrderedMap
import Stencil.Proofs.Registry.Relocation

/-! # Footprints — which blocks a change of the store touches

    Every change of the store gives identities away or records the state of a
    block.  `Changes K` says that the blocks outside of a collection `K` keep
    their states.  For a change to stay within a collection, what is put into
    its blocks has to come from it as well: `Within K` says that the collection
    takes in all new identities and whatever is inside its own blocks.

    Here it is shown what a definition touches: the block that is given, the one
    that is there, and a new one (`define_changes`, `define_keeps`). -/

namespace Stencil

namespace Store

open Registry

/-- No identity is taken back, and the blocks outside of a collection keep their states. -/
structure Changes (K : BlockId → Prop) (store after : Store Draft) : Prop where
  next : store.next ≤ after.next
  frame : ∀ id, ¬ K id → after.current.get? id = store.current.get? id

/-- The state of a block is recorded under its own identity. -/
def Keyed (store : Store Draft) : Prop :=
  ∀ id block, store.current.get? id = some block → block.id = id

section Changes

variable {K : BlockId → Prop} {store middle after : Store Draft} {block : Block BlockId Draft}

theorem Changes.refl (store : Store Draft) : store.Changes K store :=
  ⟨Nat.le_refl _, fun _ _ => rfl⟩

theorem Changes.trans (h : store.Changes K middle) (hlast : middle.Changes K after) :
    store.Changes K after where
  next := Nat.le_trans h.next hlast.next
  frame := fun id hid => (hlast.frame id hid).trans (h.frame id hid)

theorem changes_taken (store : Store Draft) : store.Changes K store.taken :=
  ⟨Nat.le_succ _, fun _ _ => rfl⟩

theorem changes_write (h : K block.id) : store.Changes K (store.write block) := by
  refine ⟨Nat.le_refl _, fun id hid => ?_⟩
  have hne : id ≠ block.id := fun heq => hid (heq ▸ h)
  rw [current_write, if_neg hne]

theorem Keyed.write (h : store.Keyed) (block : Block BlockId Draft) :
    (store.write block).Keyed := by
  intro id state hstate
  rw [current_write] at hstate
  split at hstate
  · next hid => rw [← Option.some.inj hstate, hid]
  · exact h id state hstate

theorem Keyed.read_id (h : store.Keyed) (block : Block BlockId Draft) :
    (store.read block).id = block.id := by
  rw [read]
  cases hstate : store.current.get? block.id with
  | none => rfl
  | some state => exact h _ _ hstate

end Changes

/-- The blocks have identities that were given away, and are in a collection. -/
def Known (K : BlockId → Prop) (store : Store Draft) (ids : List BlockId) : Prop :=
  ∀ id ∈ ids, K id ∧ id < store.next

/-- A collection takes in every new identity and whatever is inside its own blocks; and what is
    recorded has an identity that was given away. -/
structure Within (K : BlockId → Prop) (store : Store Draft) : Prop where
  fresh : ∀ id, store.next ≤ id → K id
  keyed : store.Keyed
  given : ∀ id block, store.current.get? id = some block → id < store.next
  bounded : ∀ id, ∀ inner ∈ inside store id, inner < store.next
  closed : ∀ id, K id → ∀ inner ∈ inside store id, K inner

section Within

variable {K : BlockId → Prop} {store after : Store Draft} {block : Block BlockId Draft}
  {ids more : List BlockId}

theorem Known.mono (h : store.Known K ids) (hnext : store.next ≤ after.next) :
    after.Known K ids :=
  fun id hid => ⟨(h id hid).1, Nat.lt_of_lt_of_le (h id hid).2 hnext⟩

theorem Known.subset (h : store.Known K ids) (hmore : more ⊆ ids) : store.Known K more :=
  fun id hid => h id (hmore hid)

theorem known_append : store.Known K (ids ++ more) ↔ store.Known K ids ∧ store.Known K more :=
  List.forall_mem_append

theorem known_ofBlock : store.Known K (blockIds (.ofBlock block))
    ↔ (K block.id ∧ block.id < store.next) ∧ store.Known K (block.nodes.flatMap blockIds) := by
  rw [Known, blockIds_ofBlock]
  exact List.forall_mem_cons

theorem Within.taken (h : store.Within K) : store.taken.Within K where
  fresh := fun id hid => h.fresh id (Nat.le_of_succ_le hid)
  keyed := h.keyed
  given := fun id block hblock => Nat.lt_succ_of_lt (h.given id block hblock)
  bounded := fun id inner hinner => Nat.lt_succ_of_lt (h.bounded id inner hinner)
  closed := h.closed

theorem Within.known_inside (h : store.Within K) {id : BlockId} (hid : K id) :
    store.Known K (inside store id) :=
  fun inner hinner => ⟨h.closed id hid inner hinner, h.bounded id inner hinner⟩

theorem Within.known_read (h : store.Within K)
    (hblock : store.Known K (blockIds (.ofBlock block))) :
    store.Known K (blockIds (.ofBlock (store.read block))) := by
  have hid := (known_ofBlock.mp hblock).1
  have hclosed := h.known_inside hid.1
  rw [inside] at hclosed
  rw [read]
  cases hstate : store.current.get? block.id with
  | none => exact hblock
  | some state =>
      rw [hstate] at hclosed
      refine known_ofBlock.mpr ⟨?_, hclosed⟩
      rwa [Option.getD_some, h.keyed _ _ hstate]

/-- What is inside a block after another one was recorded. -/
theorem mem_inside_write {id inner : BlockId} (h : inner ∈ inside (store.write block) id) :
    id = block.id ∧ inner ∈ block.nodes.flatMap blockIds ∨ inner ∈ inside store id := by
  rw [inside, current_write] at h
  by_cases heq : id = block.id
  · rw [if_pos heq] at h
    exact .inl ⟨heq, h⟩
  · rw [if_neg heq] at h
    exact .inr h

/-- A block of the collection may be recorded with contents from it. -/
theorem Within.write (h : store.Within K) (hblock : store.Known K (blockIds (.ofBlock block))) :
    (store.write block).Within K := by
  obtain ⟨hid, hnodes⟩ := known_ofBlock.mp hblock
  refine ⟨h.fresh, h.keyed.write block, fun id state hstate => ?_, fun id inner hinner => ?_,
    fun id hK inner hinner => ?_⟩
  · rw [current_write] at hstate
    split at hstate
    · next heq => exact heq ▸ hid.2
    · exact h.given id state hstate
  · rcases mem_inside_write hinner with ⟨-, hnew⟩ | hold
    · exact (hnodes inner hnew).2
    · exact h.bounded id inner hold
  · rcases mem_inside_write hinner with ⟨-, hnew⟩ | hold
    · exact (hnodes inner hnew).1
    · exact h.closed id hK inner hold

end Within

/-- A change that stays within a collection. -/
structure Keeps (K : BlockId → Prop) (store after : Store Draft) : Prop extends
    store.Changes K after where
  within : after.Within K

end Store

namespace Registry

open Store

variable {K : BlockId → Prop} {store : Store Draft} {registry : Registry Draft}
  {block : Block BlockId Draft}

/-! ## What a definition touches -/

/-- What becomes of a definition when its name is defined anew. -/
def redefinition (store : Store Draft) (previous : Definition Draft) (block : Block BlockId Draft)
    (owner : Nat) : Definition Draft :=
  if previous.owner = owner then
    sequential store.next previous (store.read previous.block).nodes block owner
  else inherited previous (store.read previous.block) block owner

/-- The new definition is recorded, and the other blocks that took part are emptied. -/
theorem define_of_some {name : String} {previous : Definition Draft}
    (h : registry.get? name = some previous) (block : Block BlockId Draft) (owner : Nat) :
    registry.define store name block owner =
      let definition := redefinition store previous (store.read block) owner
      { block := definition.block,
        store := emptyUnless definition.block.id
          (emptyUnless definition.block.id (store.taken.write definition.block) previous.block)
          (store.read block),
        registry := registry.insert name definition } := by
  rw [define, h]
  rfl

theorem define_of_none {name : String} (h : registry.get? name = none)
    (block : Block BlockId Draft) (owner : Nat) :
    registry.define store name block owner =
      { block := store.read block, store := store.write (store.read block),
        registry := registry.insert name (initial (store.read block) owner) } := by
  rw [define, h]

theorem redefinition_id (hkeyed : store.Keyed) (previous : Definition Draft)
    (block : Block BlockId Draft) (owner : Nat) :
    (redefinition store previous block owner).block.id
      = if previous.owner = owner then store.next else previous.block.id := by
  rw [redefinition]
  split
  · exact sequential_id ..
  · rw [inherited_id, hkeyed.read_id]

theorem changes_emptyUnless (hkeyed : store.Keyed) (hid : K block.id) (result : BlockId) :
    store.Changes K (emptyUnless result store block)
      ∧ (emptyUnless result store block).Keyed := by
  rw [emptyUnless]
  split
  · exact ⟨.refl store, hkeyed⟩
  · refine ⟨changes_write ?_, hkeyed.write _⟩
    show K (store.read block).id
    rwa [hkeyed.read_id]

/-- **A definition touches the given block, the one that is there, and a new one.** -/
theorem define_changes (hkeyed : store.Keyed) (hid : K block.id) (hnext : K store.next)
    (hregistry : ∀ definition ∈ registry.values, K definition.block.id) (name : String)
    (owner : Nat) :
    let defined := registry.define store name block owner
    store.Changes K defined.store ∧ defined.store.Keyed
      ∧ ∀ definition ∈ defined.registry.values, K definition.block.id := by
  have hread : K (store.read block).id := by rwa [hkeyed.read_id]
  cases h : registry.get? name with
  | none =>
      rw [define_of_none h]
      refine ⟨changes_write hread, hkeyed.write _, fun definition hmem => ?_⟩
      rcases OrderedMap.mem_values_insert hmem with rfl | hmem
      · rwa [initial_block]
      · exact hregistry definition hmem
  | some previous =>
      have hprevious := hregistry previous (OrderedMap.mem_values_of_get? h)
      rw [define_of_some h]
      have hid := redefinition_id hkeyed previous (store.read block) owner
      generalize redefinition store previous (store.read block) owner = definition at hid
      have hdefinition : K definition.block.id := by
        rw [hid]
        split
        · exact hnext
        · exact hprevious
      have hwritten : store.Changes K (store.taken.write definition.block) :=
        (changes_taken store).trans (changes_write hdefinition)
      have hkeyedWritten : (store.taken.write definition.block).Keyed :=
        Keyed.write hkeyed definition.block
      obtain ⟨hfirst, hkeyedFirst⟩ :=
        changes_emptyUnless hkeyedWritten hprevious definition.block.id
      obtain ⟨hsecond, hkeyedSecond⟩ := changes_emptyUnless hkeyedFirst hread definition.block.id
      refine ⟨(hwritten.trans hfirst).trans hsecond, hkeyedSecond, fun other hmem => ?_⟩
      rcases OrderedMap.mem_values_insert hmem with rfl | hmem
      · exact hdefinition
      · exact hregistry other hmem

/-! ## What stands in a new definition -/

section Parts

variable {P : BlockId → Prop} {previous : Definition Draft} {kept : Block BlockId Draft}
  {existing : List Draft}

theorem forall_blockIds_iff {definition : Definition Draft} :
    (∀ id ∈ definition.blockIds, P id)
      ↔ (P definition.block.id ∧ ∀ id ∈ definition.block.nodes.flatMap blockIds, P id)
        ∧ (∀ id ∈ definition.head.flatMap blockIds, P id)
        ∧ ∀ id ∈ definition.tail.flatMap blockIds, P id := by
  rw [Definition.blockIds, List.flatMap_append, List.forall_mem_append, List.forall_mem_append,
    blockIds_ofBlock, List.forall_mem_cons]

theorem forall_blockIds_initial (hid : P block.id)
    (hnodes : ∀ id ∈ block.nodes.flatMap blockIds, P id) (owner : Nat) :
    ∀ id ∈ (initial block owner).blockIds, P id := by
  rw [forall_blockIds_iff, initial_block]
  refine ⟨⟨hid, hnodes⟩, ?_⟩
  unfold initial
  cases block.props.mode with
  | append => exact ⟨nofun, hnodes⟩
  | prepend => exact ⟨hnodes, nofun⟩
  | replace => exact ⟨nofun, nofun⟩

theorem forall_blockIds_sequential {new : BlockId} (hid : P new)
    (hexisting : ∀ id ∈ existing.flatMap blockIds, P id)
    (hnodes : ∀ id ∈ block.nodes.flatMap blockIds, P id)
    (hhead : ∀ id ∈ previous.head.flatMap blockIds, P id)
    (htail : ∀ id ∈ previous.tail.flatMap blockIds, P id) (owner : Nat) :
    ∀ id ∈ (sequential new previous existing block owner).blockIds, P id := by
  rw [forall_blockIds_iff, sequential_id]
  unfold sequential merged
  have happend : ∀ {nodes more : List Draft}, (∀ id ∈ nodes.flatMap blockIds, P id) →
      (∀ id ∈ more.flatMap blockIds, P id) → ∀ id ∈ (nodes ++ more).flatMap blockIds, P id := by
    intro nodes more h hmore
    rw [List.flatMap_append]
    exact List.forall_mem_append.mpr ⟨h, hmore⟩
  -- the merge data is kept unless the definition replaces
  have hwraps : ∀ {nodes : List Draft}, (∀ id ∈ nodes.flatMap blockIds, P id) →
      ∀ id ∈ (if (previous.mode != .replace) = true then nodes else []).flatMap blockIds, P id := by
    intro nodes h
    split
    · exact h
    · exact nofun
  cases block.props.mode with
  | append => exact ⟨⟨hid, happend hexisting hnodes⟩, hwraps hhead, hwraps (happend htail hnodes)⟩
  | prepend => exact ⟨⟨hid, happend hnodes hexisting⟩, hwraps (happend hnodes hhead), hwraps htail⟩
  | replace => exact ⟨⟨hid, hnodes⟩, nofun, nofun⟩

theorem forall_blockIds_inherited (hid : P kept.id)
    (hkept : ∀ id ∈ kept.nodes.flatMap blockIds, P id)
    (hnodes : ∀ id ∈ block.nodes.flatMap blockIds, P id)
    (hhead : ∀ id ∈ previous.head.flatMap blockIds, P id)
    (htail : ∀ id ∈ previous.tail.flatMap blockIds, P id) (owner : Nat) :
    ∀ id ∈ (inherited previous kept block owner).blockIds, P id := by
  rw [forall_blockIds_iff, inherited_id]
  have hall : ∀ id ∈ (previous.head ++ block.nodes ++ previous.tail).flatMap blockIds, P id := by
    rw [List.flatMap_append, List.flatMap_append]
    exact List.forall_mem_append.mpr ⟨List.forall_mem_append.mpr ⟨hhead, hnodes⟩, htail⟩
  have hfront : ∀ id ∈ (previous.head ++ block.nodes).flatMap blockIds, P id := by
    rw [List.flatMap_append]
    exact List.forall_mem_append.mpr ⟨hhead, hnodes⟩
  have hback : ∀ id ∈ (block.nodes ++ previous.tail).flatMap blockIds, P id := by
    rw [List.flatMap_append]
    exact List.forall_mem_append.mpr ⟨hnodes, htail⟩
  unfold inherited
  cases previous.mode with
  | replace => exact ⟨⟨hid, hkept⟩, nofun, nofun⟩
  | append =>
      cases block.props.mode with
      | append => exact ⟨⟨hid, hall⟩, hhead, hback⟩
      | prepend => exact ⟨⟨hid, hall⟩, hfront, htail⟩
      | replace => exact ⟨⟨hid, hall⟩, nofun, nofun⟩
  | prepend =>
      cases block.props.mode with
      | append => exact ⟨⟨hid, hall⟩, hhead, hback⟩
      | prepend => exact ⟨⟨hid, hall⟩, hfront, htail⟩
      | replace => exact ⟨⟨hid, hall⟩, nofun, nofun⟩

end Parts

theorem known_mentioned (hregistry : store.Known K registry.mentioned)
    {definition : Definition Draft} (h : definition ∈ registry.values) :
    store.Known K definition.blockIds :=
  fun id hid => hregistry id (List.mem_flatMap.mpr ⟨definition, h, hid⟩)

theorem known_mentioned_insert (hregistry : store.Known K registry.mentioned) {name : String}
    {definition : Definition Draft} (h : store.Known K definition.blockIds) :
    store.Known K (mentioned (registry.insert name definition)) := by
  intro id hid
  obtain ⟨other, hother, hstands⟩ := List.mem_flatMap.mp hid
  rcases OrderedMap.mem_values_insert hother with rfl | hother
  · exact h id hstands
  · exact known_mentioned hregistry hother id hstands

/-- What stands in a new definition is known when its parts are. -/
theorem known_redefinition (h : store.Within K) {previous : Definition Draft}
    (hprevious : store.Known K previous.blockIds)
    (hblock : store.Known K (blockIds (.ofBlock block))) (owner : Nat) :
    store.taken.Known K (redefinition store previous block owner).blockIds := by
  obtain ⟨⟨hplace, hcontent⟩, hhead, htail⟩ := forall_blockIds_iff.mp hprevious
  obtain ⟨hkept, hinside⟩ := known_ofBlock.mp (h.known_read (known_ofBlock.mpr ⟨hplace, hcontent⟩))
  have hnodes := (known_ofBlock.mp hblock).2
  have hnew : K store.next ∧ store.next < store.taken.next :=
    ⟨h.fresh _ (Nat.le_refl _), Nat.lt_succ_self _⟩
  have hlater : ∀ {ids : List BlockId}, store.Known K ids → store.taken.Known K ids :=
    fun hids => hids.mono (Nat.le_succ _)
  rw [redefinition]
  split
  · exact forall_blockIds_sequential hnew (hlater hinside) (hlater hnodes) (hlater hhead)
      (hlater htail) owner
  · exact forall_blockIds_inherited ⟨hkept.1, Nat.lt_succ_of_lt hkept.2⟩ (hlater hinside)
      (hlater hnodes) (hlater hhead) (hlater htail) owner

theorem within_emptyUnless (h : store.Within K)
    (hid : K block.id ∧ block.id < store.next) (result : BlockId) :
    (emptyUnless result store block).Within K := by
  rw [emptyUnless]
  split
  · exact h
  · refine h.write (known_ofBlock.mpr ⟨?_, nofun⟩)
    show K (store.read block).id ∧ (store.read block).id < store.next
    rwa [h.keyed.read_id]

theorem emptyUnless_next (result : BlockId) (store : Store Draft) (block : Block BlockId Draft) :
    (emptyUnless result store block).next = store.next := by
  rw [emptyUnless]
  split <;> rfl

/-- **A definition stays within a collection that its parts come from.** -/
theorem define_keeps (h : store.Within K) (hregistry : store.Known K registry.mentioned)
    (hblock : store.Known K (blockIds (.ofBlock block))) (name : String) (owner : Nat) :
    let defined := registry.define store name block owner
    store.Keeps K defined.store ∧ defined.store.Known K defined.registry.mentioned
      ∧ defined.store.Known K (blockIds (.ofBlock defined.block)) := by
  intro defined
  have hvalues : ∀ definition ∈ registry.values, K definition.block.id := fun definition hmem =>
    (known_ofBlock.mp (known_append.mp (known_mentioned hregistry hmem)).1).1.1
  obtain ⟨hchanges, hkeyed, -⟩ := define_changes h.keyed (known_ofBlock.mp hblock).1.1
    (h.fresh _ (Nat.le_refl _)) hvalues name owner
  -- it is left to look at what is recorded, and at what is placed and registered
  suffices hrest : defined.store.Within K ∧ defined.store.Known K defined.registry.mentioned
      ∧ defined.store.Known K (blockIds (.ofBlock defined.block)) from
    ⟨⟨hchanges, hrest.1⟩, hrest.2⟩
  have hread := h.known_read hblock
  obtain ⟨hid, hnodes⟩ := known_ofBlock.mp hread
  cases hname : registry.get? name with
  | none =>
      have hdefined : defined = _ := define_of_none hname block owner
      rw [hdefined]
      have hinitial := forall_blockIds_initial hid hnodes owner
      exact ⟨h.write hread, known_mentioned_insert hregistry hinitial, hread⟩
  | some previous =>
      have hprevious := known_mentioned hregistry (OrderedMap.mem_values_of_get? hname)
      obtain ⟨⟨hplace, -⟩, -⟩ := forall_blockIds_iff.mp hprevious
      have hdefined : defined = _ := define_of_some hname block owner
      rw [hdefined]
      have hknown := known_redefinition h hprevious hread owner
      generalize redefinition store previous (store.read block) owner = definition at hknown
      have hresult := (known_append.mp hknown).1
      have hwritten := h.taken.write hresult
      have hfirst := within_emptyUnless hwritten ⟨hplace.1, Nat.lt_succ_of_lt hplace.2⟩
        definition.block.id
      have hgiven : K (store.read block).id ∧ (store.read block).id < (emptyUnless
          definition.block.id (store.taken.write definition.block) previous.block).next := by
        rw [emptyUnless_next]
        exact ⟨hid.1, Nat.lt_succ_of_lt hid.2⟩
      have hsecond := within_emptyUnless hfirst hgiven definition.block.id
      have hnext : store.taken.next ≤ (emptyUnless definition.block.id (emptyUnless
          definition.block.id (store.taken.write definition.block) previous.block)
            (store.read block)).next := by
        rw [emptyUnless_next, emptyUnless_next]
        exact Nat.le_refl _
      exact ⟨hsecond, known_mentioned_insert (hregistry.mono (Nat.le_trans (Nat.le_succ _) hnext))
        (hknown.mono hnext), hresult.mono hnext⟩

end Registry

end Stencil
