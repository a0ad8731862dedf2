import Stencil.Proofs.Registry.Footprint

/-! # Snapshots — a copy that answers as the registry would, and leaves it alone

    A snapshot gives every block of a registry a counterpart with an identity
    that no block had before.  A run of definitions on the copy touches none of
    the registry's own blocks (`shown_serveAll_snapshot`).  Every answer of the
    copy, and everything it shows afterwards, is the counterpart of what the
    registry itself would have given (`serveAll_snapshot`). -/

namespace Stencil

namespace Registry

open Store

variable {store other : Store Draft} {registry : Registry Draft} {K : BlockId → Prop}

/-! ## What a snapshot records -/

private theorem lookup_filter (keep : BlockId → Bool) (id : BlockId)
    (entries : List (BlockId × Block BlockId Draft)) :
    (entries.filter fun entry => keep entry.1).lookup id
      = if keep id then entries.lookup id else none := by
  induction entries with
  | nil => simp
  | cons entry rest ih =>
      obtain ⟨key, block⟩ := entry
      by_cases hid : id = key
      · subst hid
        cases hkeep : keep id with
        | true => simp [hkeep]
        | false =>
            rw [hkeep] at ih
            simpa [hkeep] using ih
      · have hne : (id == key) = false := beq_eq_false_iff_ne.mpr hid
        rw [List.lookup_cons, hne]
        cases hkeep : keep key with
        | true => simpa [List.filter_cons, hkeep, List.lookup_cons, hne] using ih
        | false => simpa [List.filter_cons, hkeep] using ih

private theorem lookup_shifted (offset id : BlockId)
    (entries : List (BlockId × Block BlockId Draft)) :
    (entries.map fun entry => (offset + entry.1, shiftedBlock offset entry.2)).lookup (offset + id)
      = (entries.lookup id).map (shiftedBlock offset) := by
  induction entries with
  | nil => rfl
  | cons entry rest ih =>
      obtain ⟨key, block⟩ := entry
      rw [List.map_cons, List.lookup_cons, List.lookup_cons, ih]
      by_cases hid : id = key
      · simp [hid]
      · have hne : (id == key) = false := beq_eq_false_iff_ne.mpr hid
        have hne' : (offset + id == offset + key) = false :=
          beq_eq_false_iff_ne.mpr fun heq => hid (Nat.add_left_cancel heq)
        rw [hne, hne']

/-- What was recorded before stays recorded. -/
theorem current_snapshot_old {id : BlockId} (hid : id < store.next) :
    (registry.snapshot store).1.current.get? id = store.current.get? id := by
  show (_ ++ _ : List (BlockId × Block BlockId Draft)).lookup id = store.current.entries.lookup id
  rw [List.lookup_append]
  have hnone : ((recorded store registry).map fun entry =>
      (store.next + entry.1, shiftedBlock store.next entry.2)).lookup id = none := by
    refine List.lookup_eq_none_iff.mpr fun entry hentry => ?_
    obtain ⟨before, -, rfl⟩ := List.mem_map.mp hentry
    have hne : id ≠ store.next + before.1 :=
      Nat.ne_of_lt (Nat.lt_of_lt_of_le hid (Nat.le_add_right _ _))
    simpa using hne
  rw [hnone, Option.or_none]

/-- Beyond the identities given away before, the counterparts of what is recorded are recorded. -/
theorem current_snapshot_new (hgiven : ∀ id block, store.current.get? id = some block →
      id < store.next) (id : BlockId) :
    (registry.snapshot store).1.current.get? (store.next + id)
      = if (withInner store (store.current.size + 1) registry.mentioned).contains id
        then (store.current.get? id).map (shiftedBlock store.next) else none := by
  have hnone : store.current.entries.lookup (store.next + id) = none := by
    cases hstate : store.current.entries.lookup (store.next + id) with
    | none => rfl
    | some block => exact absurd (hgiven _ _ hstate) (Nat.not_lt.mpr (Nat.le_add_right _ _))
  show (_ ++ _ : List (BlockId × Block BlockId Draft)).lookup _ = _
  rw [List.lookup_append, hnone, Option.none_or, lookup_shifted, recorded]
  rw [lookup_filter fun id =>
    (withInner store (store.current.size + 1) registry.mentioned).contains id]
  split <;> rfl

end Registry

/-! ## Runs of definitions -/

/-- The store when all identities below one have been given away. -/
def Store.upTo (store : Store Draft) (given : BlockId) : Store Draft :=
  { store with next := max store.next given }

/-- A request to define a name by a block. -/
structure Registry.Request where
  name : String
  block : Block BlockId Draft
  owner : Nat
  /-- The identities below this one were given away when the request was made. -/
  given : BlockId
  known : ∀ id ∈ blockIds (.ofBlock block), id < given

/-- The outcome of a run of requests: the blocks to place, and the state afterwards. -/
structure Registry.Served where
  answers : List (Block BlockId Draft)
  store : Store Draft
  registry : Registry Draft

namespace Registry

open Store

variable {store other : Store Draft} {registry : Registry Draft} {K : BlockId → Prop}

/-- The request for the counterpart of a block. -/
def Request.shifted (offset : BlockId) (request : Request) : Request where
  name := request.name
  block := shiftedBlock offset request.block
  owner := request.owner
  given := offset + request.given
  known := by
    intro id hid
    have hids : blockIds (.ofBlock (shiftedBlock offset request.block))
        = (blockIds (.ofBlock request.block)).map (offset + ·) := by
      rw [← blockIds_relabel, Node.relabel_ofBlock]
      rfl
    rw [hids] at hid
    obtain ⟨before, hbefore, rfl⟩ := List.mem_map.mp hid
    exact Nat.add_lt_add_left (request.known before hbefore) offset

/-- Defines a name as a request says. -/
def serve (store : Store Draft) (registry : Registry Draft) (request : Request) : Defined Draft :=
  registry.define (store.upTo request.given) request.name request.block request.owner

/-- Serves requests one after another. -/
def serveAll (store : Store Draft) (registry : Registry Draft) : List Request → Served
  | [] => { answers := [], store, registry }
  | request :: requests =>
      let defined := serve store registry request
      let served := serveAll defined.store defined.registry requests
      { served with answers := defined.block :: served.answers }

/-! ## What a run touches -/

theorem changes_upTo (store : Store Draft) (given : BlockId) :
    store.Changes K (store.upTo given) :=
  ⟨Nat.le_max_left _ _, fun _ _ => rfl⟩

/-- A run touches the blocks that are handed in, those that are registered, and new ones. -/
theorem serveAll_changes (requests : List Request) : ∀ {store : Store Draft}
    {registry : Registry Draft}, store.Keyed → (∀ id, store.next ≤ id → K id) →
      (∀ definition ∈ registry.values, K definition.block.id) →
      (∀ request ∈ requests, K request.block.id) →
      store.Changes K (serveAll store registry requests).store := by
  induction requests with
  | nil => exact fun _ _ _ _ => .refl _
  | cons request requests ih =>
      intro store registry hkeyed hfresh hregistry hrequests
      obtain ⟨hrequest, hrest⟩ := List.forall_mem_cons.mp hrequests
      have hupTo := changes_upTo (K := K) store request.given
      have hkeyedUpTo : (store.upTo request.given).Keyed := hkeyed
      obtain ⟨hdefine, hkeyedDefine, hdefined⟩ := define_changes hkeyedUpTo hrequest
        (hfresh _ hupTo.next) hregistry request.name request.owner
      have hserve := hupTo.trans hdefine
      exact hserve.trans (ih hkeyedDefine
        (fun id hid => hfresh id (Nat.le_trans hserve.next hid)) hdefined hrest)

/-! ## The counterparts of what a run does -/

end Registry

/-- In the second store the counterparts of the blocks of a collection are in the states of their
    originals. -/
structure Store.Mirrors (offset : BlockId) (K : BlockId → Prop) (store other : Store Draft) :
    Prop where
  next : other.next = offset + store.next
  state : ∀ id, K id →
    other.current.get? (offset + id) = (store.current.get? id).map (Registry.shiftedBlock offset)

namespace Store

open Registry

variable {offset : BlockId} {K : BlockId → Prop} {store other : Store Draft}
  {block : Block BlockId Draft}

theorem Mirrors.relocates (h : store.Mirrors offset K other) (hwithin : store.Within K) :
    store.Relocates (offset + ·) K other where
  closed := hwithin.closed
  state := h.state

theorem Mirrors.taken (h : store.Mirrors offset K other) :
    store.taken.Mirrors offset K other.taken where
  next := congrArg (· + 1) h.next
  state := h.state

theorem Mirrors.upTo (h : store.Mirrors offset K other) (given : BlockId) :
    (store.upTo given).Mirrors offset K (other.upTo (offset + given)) where
  next := by
    show max other.next (offset + given) = offset + max store.next given
    rw [h.next, Nat.add_max_add_left]
  state := h.state

theorem Within.upTo (h : store.Within K) (given : BlockId) : (store.upTo given).Within K where
  fresh := fun id hid => h.fresh id (Nat.le_trans (Nat.le_max_left _ _) hid)
  keyed := h.keyed
  given := fun id block hstate => Nat.lt_of_lt_of_le (h.given id block hstate) (Nat.le_max_left _ _)
  bounded := fun id inner hinner =>
    Nat.lt_of_lt_of_le (h.bounded id inner hinner) (Nat.le_max_left _ _)
  closed := h.closed

theorem Mirrors.read (h : store.Mirrors offset K other) (hid : K block.id) :
    other.read (shiftedBlock offset block) = shiftedBlock offset (store.read block) := by
  rw [Store.read, Store.read]
  show ((other.current.get? (offset + block.id)).getD _) = _
  rw [h.state block.id hid]
  cases store.current.get? block.id <;> rfl

theorem Mirrors.write (h : store.Mirrors offset K other) (block : Block BlockId Draft) :
    (store.write block).Mirrors offset K (other.write (shiftedBlock offset block)) where
  next := h.next
  state := by
    intro id hid
    rw [current_write, current_write]
    by_cases heq : id = block.id
    · rw [if_pos heq, heq]
      exact if_pos rfl
    · have hne : ¬ offset + id = offset + block.id := fun hsum => heq (Nat.add_left_cancel hsum)
      rw [if_neg heq, ← h.state id hid]
      exact if_neg hne

theorem Mirrors.emptyUnless (h : store.Mirrors offset K other) (hid : K block.id)
    (result : BlockId) :
    (Registry.emptyUnless result store block).Mirrors offset K
      (Registry.emptyUnless (offset + result) other (shiftedBlock offset block)) := by
  rw [Registry.emptyUnless, Registry.emptyUnless]
  by_cases heq : block.id = result
  · have hsum : (shiftedBlock offset block).id = offset + result := congrArg (offset + ·) heq
    rw [if_pos heq, if_pos hsum]
    exact h
  · have hne : (shiftedBlock offset block).id ≠ offset + result := fun hsum =>
      heq (Nat.add_left_cancel hsum)
    rw [if_neg heq, if_neg hne]
    have hwritten := h.write { store.read block with nodes := [] }
    rw [setNodes, setNodes, h.read hid]
    exact hwritten

end Store

namespace Registry

open Store

variable {offset : BlockId} {K : BlockId → Prop} {store other : Store Draft}
  {registry : Registry Draft} {block : Block BlockId Draft}

theorem initial_shifted (block : Block BlockId Draft) (owner : Nat) :
    initial (shiftedBlock offset block) owner
      = copyDefinition (shiftedBlock offset) (shifted offset) (initial block owner) := by
  obtain ⟨_, line, ⟨_, _, mode, _⟩, nodes⟩ := block
  cases mode <;> rfl

theorem sequential_shifted (id : BlockId) (previous : Definition Draft) (existing : List Draft)
    (block : Block BlockId Draft) (owner : Nat) :
    sequential (offset + id) (copyDefinition (shiftedBlock offset) (shifted offset) previous)
        (existing.map (shifted offset)) (shiftedBlock offset block) owner
      = copyDefinition (shiftedBlock offset) (shifted offset)
          (sequential id previous existing block owner) := by
  obtain ⟨_, line, ⟨_, _, mode, _⟩, nodes⟩ := block
  obtain ⟨_, before, _, head, tail⟩ := previous
  cases mode <;> cases before <;>
    simp [sequential, merged, copyDefinition, shiftedBlock, List.map_append]

theorem inherited_shifted (previous : Definition Draft) (kept block : Block BlockId Draft)
    (owner : Nat) :
    inherited (copyDefinition (shiftedBlock offset) (shifted offset) previous)
        (shiftedBlock offset kept) (shiftedBlock offset block) owner
      = copyDefinition (shiftedBlock offset) (shifted offset)
          (inherited previous kept block owner) := by
  obtain ⟨_, line, ⟨_, _, mode, _⟩, nodes⟩ := block
  obtain ⟨_, before, _, head, tail⟩ := previous
  cases mode <;> cases before <;>
    simp [inherited, copyDefinition, shiftedBlock, List.map_append]

theorem redefinition_shifted (h : store.Mirrors offset K other) {previous : Definition Draft}
    (hplace : K previous.block.id) (block : Block BlockId Draft) (owner : Nat) :
    redefinition other (copyDefinition (shiftedBlock offset) (shifted offset) previous)
        (shiftedBlock offset block) owner
      = copyDefinition (shiftedBlock offset) (shifted offset)
          (redefinition store previous block owner) := by
  have hkept : other.read (copyDefinition (shiftedBlock offset) (shifted offset) previous).block
      = shiftedBlock offset (store.read previous.block) := h.read hplace
  rw [redefinition, redefinition, hkept, h.next]
  by_cases howner : previous.owner = owner
  · rw [if_pos howner]
    exact (if_pos howner).trans (sequential_shifted ..)
  · rw [if_neg howner]
    exact (if_neg howner).trans (inherited_shifted ..)

/-- A definition on the counterparts does the counterpart of what it does on the originals. -/
theorem define_mirrors (h : store.Mirrors offset K other) (hwithin : store.Within K)
    (hregistry : store.Known K registry.mentioned)
    (hblock : store.Known K (blockIds (.ofBlock block))) (name : String) (owner : Nat) :
    let defined := registry.define store name block owner
    let counterpart := (registry.renamed (offset + ·)).define other name
      (shiftedBlock offset block) owner
    counterpart.block = shiftedBlock offset defined.block
      ∧ counterpart.registry = defined.registry.renamed (offset + ·)
      ∧ defined.store.Mirrors offset K counterpart.store := by
  have hid := (known_ofBlock.mp hblock).1.1
  have hread := h.read hid
  have hget : (registry.renamed (offset + ·)).get? name
      = (registry.get? name).map (copyDefinition (shiftedBlock offset) (shifted offset)) :=
    OrderedMap.get?_mapValues _ registry name
  cases hname : registry.get? name with
  | none =>
      rw [hname, Option.map_none] at hget
      rw [define_of_none hname, define_of_none hget, hread, initial_shifted]
      exact ⟨rfl, (OrderedMap.mapValues_insert _ _ _ _).symm, h.write _⟩
  | some previous =>
      rw [hname, Option.map_some] at hget
      have hprevious := known_mentioned hregistry (OrderedMap.mem_values_of_get? hname)
      have hplace := (forall_blockIds_iff.mp hprevious).1.1.1
      have hgiven : K (store.read block).id := by rwa [hwithin.keyed.read_id]
      have hmade := redefinition_shifted h hplace (store.read block) owner
      rw [define_of_some hname, define_of_some hget, hread, hmade]
      generalize redefinition store previous (store.read block) owner = definition
      have hwritten := h.taken.write definition.block
      have hfirst := hwritten.emptyUnless hplace definition.block.id
      have hsecond := hfirst.emptyUnless hgiven definition.block.id
      exact ⟨rfl, (OrderedMap.mapValues_insert _ _ _ _).symm, hsecond⟩

/-- What a run on the originals and the same run on the counterparts lead to. -/
structure Served.Mirrors (offset : BlockId) (K : BlockId → Prop) (own copy : Served) : Prop where
  answers : copy.answers = own.answers.map (shiftedBlock offset)
  registry : copy.registry = own.registry.renamed (offset + ·)
  store : own.store.Mirrors offset K copy.store
  within : own.store.Within K
  known : own.store.Known K own.registry.mentioned

theorem serveAll_mirrors (requests : List Request) : ∀ {store other : Store Draft}
    {registry : Registry Draft}, store.Mirrors offset K other → store.Within K →
      store.Known K registry.mentioned →
      (∀ request ∈ requests, ∀ id ∈ blockIds (.ofBlock request.block), K id) →
      (serveAll store registry requests).Mirrors offset K
        (serveAll other (registry.renamed (offset + ·)) (requests.map (.shifted offset))) := by
  induction requests with
  | nil =>
      intro store other registry h hwithin hregistry _
      exact ⟨rfl, rfl, h, hwithin, hregistry⟩
  | cons request requests ih =>
      intro store other registry h hwithin hregistry hrequests
      obtain ⟨hrequest, hrest⟩ := List.forall_mem_cons.mp hrequests
      have hnext : store.next ≤ (store.upTo request.given).next := Nat.le_max_left _ _
      have hknown : (store.upTo request.given).Known K (blockIds (.ofBlock request.block)) :=
        fun id hid => ⟨hrequest id hid,
          Nat.lt_of_lt_of_le (request.known id hid) (Nat.le_max_right _ _)⟩
      have hregistryUpTo := hregistry.mono hnext
      obtain ⟨hanswer, htable, hstore⟩ := define_mirrors (h.upTo request.given)
        (hwithin.upTo request.given) hregistryUpTo hknown request.name request.owner
      obtain ⟨hkeeps, hkept, -⟩ := define_keeps (hwithin.upTo request.given) hregistryUpTo hknown
        request.name request.owner
      have hlater := ih hstore hkeeps.within hkept hrest
      rw [← htable] at hlater
      exact { hlater with answers := List.cons_eq_cons.mpr ⟨hanswer, hlater.answers⟩ }

/-! ## Snapshots -/

/-- The blocks that a snapshot knows how to stand for: those of the registry, and those that are
    as they were written. -/
def StandsFor (store : Store Draft) (registry : Registry Draft) (id : BlockId) : Prop :=
  registry.Holds store id ∨ store.current.get? id = none

section Snapshot

variable {store : Store Draft} {registry : Registry Draft}

theorem holds_lt (hgiven : store.Within fun _ => True)
    (hregistry : store.Known (fun _ => True) registry.mentioned) {id : BlockId}
    (h : registry.Holds store id) : id < store.next :=
  h.of_closed (K := (· < store.next)) (fun id hid => (hregistry id hid).2)
    fun id _ => hgiven.bounded id

theorem within_standsFor (hgiven : store.Within fun _ => True) :
    store.Within (registry.StandsFor store) where
  fresh := by
    intro id hid
    refine .inr ?_
    cases hstate : store.current.get? id with
    | none => rfl
    | some block => exact absurd (hgiven.given id block hstate) (Nat.not_lt.mpr hid)
  keyed := hgiven.keyed
  given := hgiven.given
  bounded := hgiven.bounded
  closed := by
    rintro id (hid | hid) inner hinner
    · exact .inl (hid.down hinner)
    · rw [inside, hid] at hinner
      cases hinner

/-- In a snapshot the counterparts of the blocks of the registry are in their states. -/
theorem mirrors_snapshot (hgiven : store.Within fun _ => True) :
    store.Mirrors store.next (registry.StandsFor store) (registry.snapshot store).1 where
  next := rfl
  state := by
    intro id hid
    rw [current_snapshot_new hgiven.given]
    cases hstate : store.current.get? id with
    | none => split <;> rfl
    | some block =>
        rcases hid with hid | hnone
        · have hmem := hid.mem_withInner (hstate ▸ rfl) (store.current.size + 1)
          exact if_pos (List.contains_iff_mem.mpr hmem)
        · exact nomatch hstate.symm.trans hnone

/-- Whatever a snapshot records was recorded before, or is a counterpart of what was. -/
theorem current_snapshot_eq_some (hgiven : ∀ id block, store.current.get? id = some block →
      id < store.next) {id : BlockId} {block : Block BlockId Draft}
    (h : (registry.snapshot store).1.current.get? id = some block) :
    id < store.next ∧ store.current.get? id = some block
      ∨ ∃ before original, store.current.get? before = some original
        ∧ id = store.next + before ∧ block = shiftedBlock store.next original := by
  by_cases hid : id < store.next
  · rw [current_snapshot_old hid] at h
    exact .inl ⟨hid, h⟩
  · obtain ⟨before, rfl⟩ := Nat.exists_eq_add_of_le (Nat.not_lt.mp hid)
    rw [current_snapshot_new hgiven] at h
    split at h
    · obtain ⟨original, horiginal, hshifted⟩ := Option.map_eq_some_iff.mp h
      exact .inr ⟨before, original, horiginal, rfl, hshifted.symm⟩
    · cases h

theorem keyed_snapshot (hkeyed : store.Keyed) (hgiven : ∀ id block,
      store.current.get? id = some block → id < store.next) :
    (registry.snapshot store).1.Keyed := by
  intro id block hstate
  rcases current_snapshot_eq_some hgiven hstate with
    ⟨-, hold⟩ | ⟨before, original, horiginal, rfl, rfl⟩
  · exact hkeyed id block hold
  · exact congrArg (store.next + ·) (hkeyed before original horiginal)

/-- Whatever is inside a counterpart is new. -/
theorem mem_inside_snapshot (hgiven : ∀ id block, store.current.get? id = some block →
      id < store.next) {id inner : BlockId}
    (h : inner ∈ inside (registry.snapshot store).1 id) :
    id < store.next ∧ inner ∈ inside store id
      ∨ ∃ before original, original ∈ inside store before ∧ inner = store.next + original := by
  rw [inside] at h
  split at h
  · next block hstate =>
      rcases current_snapshot_eq_some hgiven hstate with
        ⟨hid, hold⟩ | ⟨before, original, horiginal, rfl, rfl⟩
      · rw [inside, hold]
        exact .inl ⟨hid, h⟩
      · obtain ⟨node, hnode, hinner⟩ := List.mem_flatMap.mp h
        obtain ⟨child, hchild, rfl⟩ := List.mem_map.mp hnode
        rw [shifted, blockIds_relabel] at hinner
        obtain ⟨stands, hstands, rfl⟩ := List.mem_map.mp hinner
        refine .inr ⟨before, stands, ?_, rfl⟩
        rw [inside, horiginal]
        exact List.mem_flatMap.mpr ⟨child, hchild, hstands⟩
  · cases h

/-- A snapshot stays within every collection that the store is within. -/
theorem keeps_snapshot {K : BlockId → Prop} (h : store.Within K) :
    store.Keeps K (registry.snapshot store).1 where
  next := Nat.le_add_right _ _
  frame := by
    intro id hid
    refine current_snapshot_old (Nat.not_le.mp fun hle => hid (h.fresh id hle))
  within :=
    { fresh := fun id hid => h.fresh id (Nat.le_trans (Nat.le_add_right _ _) hid)
      keyed := keyed_snapshot h.keyed h.given
      given := by
        intro id block hstate
        rcases current_snapshot_eq_some h.given hstate with
          ⟨hid, -⟩ | ⟨before, original, horiginal, rfl, -⟩
        · exact Nat.lt_of_lt_of_le hid (Nat.le_add_right _ _)
        · exact Nat.add_lt_add_left (h.given before original horiginal) _
      bounded := by
        intro id inner hinner
        rcases mem_inside_snapshot h.given hinner with ⟨-, hold⟩ | ⟨before, original, hold, rfl⟩
        · exact Nat.lt_of_lt_of_le (h.bounded id inner hold) (Nat.le_add_right _ _)
        · exact Nat.add_lt_add_left (h.bounded before original hold) _
      closed := by
        intro id hid inner hinner
        rcases mem_inside_snapshot h.given hinner with ⟨-, hold⟩ | ⟨before, original, -, rfl⟩
        · exact h.closed id hid inner hold
        · exact h.fresh _ (Nat.le_add_right _ _) }

theorem mentioned_renamed (f : BlockId → BlockId) (registry : Registry Draft) :
    (registry.renamed f).mentioned = registry.mentioned.map f := by
  have hnodes : ∀ nodes : List Draft,
      (nodes.map (Node.relabel f)).flatMap blockIds = (nodes.flatMap blockIds).map f := by
    intro nodes
    rw [List.flatMap_map, List.map_flatMap]
    simp only [blockIds_relabel]
  have hdefinition : ∀ definition : Definition Draft,
      (copyDefinition (Block.relabel f) (Node.relabel f) definition).blockIds
        = definition.blockIds.map f := by
    intro definition
    simp only [Definition.blockIds, copyDefinition, ← Node.relabel_ofBlock, blockIds_relabel,
      ← List.map_append, hnodes]
  have hvalues : (registry.renamed f).values
      = registry.values.map (copyDefinition (Block.relabel f) (Node.relabel f)) := by
    simp only [renamed, OrderedMap.values, OrderedMap.mapValues, List.map_map, Function.comp_def]
  show ((registry.renamed f).values.flatMap Definition.blockIds) = _
  rw [hvalues, List.flatMap_map]
  simp only [hdefinition, ← List.map_flatMap]
  rfl

/-- The blocks of the copy are new. -/
theorem known_snapshot {K : BlockId → Prop} (h : store.Within K)
    (hregistry : ∀ id ∈ registry.mentioned, id < store.next) :
    (registry.snapshot store).1.Known K (registry.snapshot store).2.mentioned := by
  have hids : (registry.snapshot store).2.mentioned = registry.mentioned.map (store.next + ·) :=
    mentioned_renamed (store.next + ·) registry
  rw [hids]
  intro id hid
  obtain ⟨before, hbefore, rfl⟩ := List.mem_map.mp hid
  exact ⟨h.fresh _ (Nat.le_add_right _ _), Nat.add_lt_add_left (hregistry before hbefore) _⟩

/-- **A run on the copy leaves the registry as it was.**  It is enough that no block of the
    registry is handed in. -/
theorem shown_serveAll_snapshot (hgiven : store.Within fun _ => True)
    (hregistry : store.Known (fun _ => True) registry.mentioned) (requests : List Request)
    (hrequests : ∀ request ∈ requests, ¬ registry.Holds store request.block.id) (depth : Nat) :
    registry.shown
        (serveAll (registry.snapshot store).1 (registry.snapshot store).2 requests).store depth
      = registry.shown store depth := by
  have hold : ∀ id, registry.Holds store id → id < store.next := fun id =>
    holds_lt hgiven hregistry
  have hfresh : ∀ id, store.next ≤ id → ¬ registry.Holds store id := fun id hid hholds =>
    Nat.not_lt.mpr hid (hold id hholds)
  have hcopies : ∀ definition ∈ (registry.snapshot store).2.values,
      ¬ registry.Holds store definition.block.id := by
    intro definition hdefinition
    obtain ⟨entry, hentry, rfl⟩ := List.mem_map.mp hdefinition
    obtain ⟨original, -, rfl⟩ := List.mem_map.mp hentry
    exact hfresh _ (Nat.le_add_right _ _)
  have hkeyed : (registry.snapshot store).1.Keyed := keyed_snapshot hgiven.keyed hgiven.given
  have hnew : ∀ id, (registry.snapshot store).1.next ≤ id → ¬ registry.Holds store id :=
    fun id hid => hfresh id (Nat.le_trans (Nat.le_add_right _ _) hid)
  have hchanges := serveAll_changes requests hkeyed hnew hcopies hrequests
  refine shown_congr (fun id hid => ?_) depth
  rw [hchanges.frame id (not_not_intro hid), current_snapshot_old (hold id hid)]

/-- **A run on the copy answers as a run on the registry itself.** -/
theorem serveAll_snapshot (hgiven : store.Within fun _ => True)
    (hregistry : store.Known (fun _ => True) registry.mentioned) (requests : List Request)
    (hrequests : ∀ request ∈ requests, ∀ id ∈ blockIds (.ofBlock request.block),
      registry.StandsFor store id) (depth : Nat) :
    let own := serveAll store registry requests
    let copy := serveAll (registry.snapshot store).1 (registry.snapshot store).2
      (requests.map (.shifted store.next))
    copy.answers = own.answers.map (shiftedBlock store.next)
      ∧ copy.registry = own.registry.renamed (store.next + ·)
      ∧ copy.registry.shown copy.store depth
        = (own.registry.shown own.store depth).renamed (store.next + ·) := by
  intro own copy
  have hknown : store.Known (registry.StandsFor store) registry.mentioned := fun id hid =>
    ⟨.inl (.root hid), (hregistry id hid).2⟩
  have h : own.Mirrors store.next (registry.StandsFor store) copy :=
    serveAll_mirrors requests (mirrors_snapshot hgiven) (within_standsFor hgiven) hknown hrequests
  refine ⟨h.answers, h.registry, ?_⟩
  rw [h.registry]
  exact shown_renamed (h.store.relocates h.within) (fun id hid => (h.known id hid).1) depth

end Snapshot

end Registry

end Stencil
