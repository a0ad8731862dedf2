import Stencil.Composition.Registry

/-! # Settled registries — one definition of a named block

    A registry is settled in a store when the store records every named block
    just as the registry has it, no two names share a block, and whatever is
    recorded has an identity that was given away.  The empty registry is
    settled; defining a name with a fresh block keeps a registry settled.

    The route:

    * `definitionAfter` says in one place what a definition leaves under its
      name, with no store in sight;
    * `define_registry`, `define_block` and `current_define` say what `define`
      does to the registry, what it hands back, and what it does to the store;
    * `define_settled` and `fresh_define` close the step, so that a run of
      definitions never has to open `define` again. -/

namespace Stencil

variable {α : Type}

namespace Store

theorem current_write (store : Store α) (block : Block BlockId α) (id : BlockId) :
    (store.write block).current.get? id
      = if id = block.id then some block else store.current.get? id :=
  OrderedMap.get?_insert store.current block.id block id

theorem read_of_current {store : Store α} {block state : Block BlockId α}
    (h : store.current.get? block.id = some state) : store.read block = state := by
  rw [read, h]
  rfl

theorem read_of_unrecorded {store : Store α} {block : Block BlockId α}
    (h : store.current.get? block.id = none) : store.read block = block := by
  rw [read, h]
  rfl

/-- A block that was given an identity and has not changed since it was made. -/
structure Fresh (store : Store α) (block : Block BlockId α) : Prop where
  given : block.id < store.next
  unrecorded : store.current.get? block.id = none

end Store

namespace Registry

/-- The store records the named blocks of a registry just as the registry has them. -/
structure Settled (store : Store α) (registry : Registry α) : Prop where
  /-- A named block is recorded in the state the registry has it in. -/
  recorded : ∀ {name definition}, registry.get? name = some definition →
    store.current.get? definition.block.id = some definition.block
  /-- Two names never share a block. -/
  separate : ∀ {name other definition second}, registry.get? name = some definition →
    registry.get? other = some second → definition.block.id = second.block.id → name = other
  /-- A recorded block stands under its own identity, which was given away. -/
  bounded : ∀ {id block}, store.current.get? id = some block → id < store.next ∧ block.id = id

/-- The empty registry is settled in a store that records nothing. -/
theorem settled_empty (next : BlockId) : Settled ({ next } : Store α) .empty where
  recorded := fun h => nomatch h
  separate := fun h => nomatch h
  bounded := fun h => nomatch h

/-- What a further block makes of a definition. -/
def step (id : BlockId) (previous : Definition α) (block : Block BlockId α) (owner : Nat) :
    Definition α :=
  if previous.owner = owner then sequential id previous previous.block.nodes block owner
  else inherited previous previous.block block owner

/-- The definition that a name has once a further block was defined under it. -/
def definitionAfter (store : Store α) (registry : Registry α) (name : String)
    (block : Block BlockId α) (owner : Nat) : Definition α :=
  match registry.get? name with
  | none => initial block owner
  | some previous => step store.next previous block owner

theorem initial_block (block : Block BlockId α) (owner : Nat) :
    (initial block owner).block = block := by
  unfold initial
  cases block.props.mode <;> rfl

theorem initial_owner (block : Block BlockId α) (owner : Nat) :
    (initial block owner).owner = owner := by
  unfold initial
  cases block.props.mode <;> rfl

theorem sequential_id (id : BlockId) (previous : Definition α) (existing : List α)
    (block : Block BlockId α) (owner : Nat) :
    (sequential id previous existing block owner).block.id = id := by
  unfold sequential
  cases block.props.mode <;> rfl

theorem sequential_owner (id : BlockId) (previous : Definition α) (existing : List α)
    (block : Block BlockId α) (owner : Nat) :
    (sequential id previous existing block owner).owner = owner := by
  unfold sequential
  cases block.props.mode <;> rfl

theorem inherited_id (previous : Definition α) (kept block : Block BlockId α) (owner : Nat) :
    (inherited previous kept block owner).block.id = kept.id := by
  unfold inherited
  cases previous.mode <;> cases block.props.mode <;> rfl

theorem inherited_owner (previous : Definition α) (kept block : Block BlockId α) (owner : Nat) :
    (inherited previous kept block owner).owner = owner := by
  unfold inherited
  cases previous.mode <;> cases block.props.mode <;> rfl

theorem step_owner (id : BlockId) (previous : Definition α) (block : Block BlockId α)
    (owner : Nat) : (step id previous block owner).owner = owner := by
  unfold step
  by_cases h : previous.owner = owner
  · rw [if_pos h]
    exact sequential_owner ..
  · rw [if_neg h]
    exact inherited_owner ..

theorem step_id (id : BlockId) (previous : Definition α) (block : Block BlockId α) (owner : Nat) :
    (step id previous block owner).block.id
      = if previous.owner = owner then id else previous.block.id := by
  unfold step
  by_cases h : previous.owner = owner
  · rw [if_pos h, if_pos h]
    exact sequential_id ..
  · rw [if_neg h, if_neg h]
    exact inherited_id ..

section Define

variable {store : Store α} {registry : Registry α} {block : Block BlockId α}

/-- What `define` does when the name is new. -/
theorem define_of_new (hf : store.Fresh block) {name : String}
    (h : registry.get? name = none) (owner : Nat) :
    registry.define store name block owner
      = { block, store := store.write block,
          registry := registry.insert name (initial block owner) } := by
  unfold define
  rw [Store.read_of_unrecorded hf.unrecorded, h]

/-- What `define` does when the name has a definition. -/
theorem define_of_known (hs : Settled store registry) (hf : store.Fresh block) {name : String}
    {previous : Definition α} (h : registry.get? name = some previous) (owner : Nat) :
    let definition := definitionAfter store registry name block owner
    registry.define store name block owner
      = { block := definition.block,
          store := emptyUnless definition.block.id
            (emptyUnless definition.block.id (store.taken.write definition.block)
              previous.block) block,
          registry := registry.insert name definition } := by
  unfold define redefine definitionAfter step
  simp only [Store.read_of_unrecorded hf.unrecorded, h, Store.read_of_current (hs.recorded h)]

/-- A definition changes the registry under its own name only. -/
theorem define_registry (hs : Settled store registry) (hf : store.Fresh block) (name : String)
    (owner : Nat) :
    (registry.define store name block owner).registry
      = registry.insert name (definitionAfter store registry name block owner) := by
  cases h : registry.get? name with
  | none => rw [define_of_new hf h, definitionAfter, h]
  | some previous => rw [define_of_known hs hf h]

/-- The block that is handed back is the one of the new definition. -/
theorem define_block (hs : Settled store registry) (hf : store.Fresh block) (name : String)
    (owner : Nat) :
    (registry.define store name block owner).block
      = (definitionAfter store registry name block owner).block := by
  cases h : registry.get? name with
  | none => rw [define_of_new hf h, definitionAfter, h, initial_block]
  | some previous => rw [define_of_known hs hf h]

/-- The block of the new definition is the given one, that of the previous definition, or one
    with a new identity. -/
theorem definitionAfter_id (store : Store α) (registry : Registry α) (block : Block BlockId α)
    (name : String) (owner : Nat) :
    let id := (definitionAfter store registry name block owner).block.id
    (registry.get? name = none ∧ id = block.id)
      ∨ ∃ previous, registry.get? name = some previous
        ∧ (id = if previous.owner = owner then store.next else previous.block.id) := by
  unfold definitionAfter
  cases h : registry.get? name with
  | none => exact Or.inl ⟨rfl, congrArg Block.id (initial_block block owner)⟩
  | some previous =>
      exact Or.inr ⟨previous, rfl, step_id ..⟩

theorem current_emptyUnless (result : BlockId) (store : Store α) {block state : Block BlockId α}
    (hread : store.read block = state) (hid : state.id = block.id) (id : BlockId) :
    (emptyUnless result store block).current.get? id
      = if block.id ≠ result ∧ id = block.id then some { state with nodes := [] }
        else store.current.get? id := by
  unfold emptyUnless
  by_cases h : block.id = result
  · rw [if_pos h, if_neg (fun hc => hc.1 h)]
  · rw [if_neg h, Store.setNodes, Store.current_write, hread]
    by_cases hi : id = block.id
    · rw [if_pos (hi.trans hid.symm), if_pos ⟨h, hi⟩]
    · rw [if_neg (fun hc => hi (hc.trans hid)), if_neg (fun hc => hi hc.2)]

/-- What a definition leaves in the store: the block of the new definition, the given block and
    that of the previous definition without contents unless they are that block, and everything
    else as it was. -/
theorem current_define (hs : Settled store registry) (hf : store.Fresh block) (name : String)
    (owner : Nat) (id : BlockId) :
    let definition := definitionAfter store registry name block owner
    (registry.define store name block owner).store.current.get? id
      = if id = definition.block.id then some definition.block
        else if id = block.id then some { block with nodes := [] }
        else match registry.get? name with
          | some previous =>
              if id = previous.block.id then some { previous.block with nodes := [] }
              else store.current.get? id
          | none => store.current.get? id := by
  intro definition
  cases h : registry.get? name with
  | none =>
      have hd : definition.block = block := by
        show (definitionAfter store registry name block owner).block = block
        rw [definitionAfter, h]
        exact initial_block block owner
      rw [define_of_new hf h, hd]
      show (store.write block).current.get? id = _
      rw [Store.current_write]
      by_cases hi : id = block.id
      · rw [if_pos hi, if_pos hi]
      · rw [if_neg hi, if_neg hi, if_neg hi]
  | some previous =>
      have hrec : store.current.get? previous.block.id = some previous.block := hs.recorded h
      have hne : previous.block.id ≠ block.id := fun he =>
        nomatch (he ▸ hrec).symm.trans hf.unrecorded
      have hsplit := definitionAfter_id store registry block name owner
      have hnew : definition.block.id ≠ block.id := by
        rcases hsplit with ⟨hnone, -⟩ | ⟨p, hp, hid⟩
        · exact nomatch h.symm.trans hnone
        · have : p = previous := Option.some.inj (hp.symm.trans h)
          subst this
          show (definitionAfter store registry name block owner).block.id ≠ block.id
          rw [hid]
          split
          · exact Nat.ne_of_gt hf.given
          · exact hne
      rw [define_of_known hs hf h]
      simp only
      -- the previous block is emptied first, the given one after it
      have hprev : (store.taken.write definition.block).read previous.block
          = if previous.block.id = definition.block.id then definition.block
            else previous.block := by
        unfold Store.read
        rw [Store.current_write]
        by_cases hi : previous.block.id = definition.block.id
        · rw [if_pos hi, if_pos hi]
          rfl
        · rw [if_neg hi, if_neg hi]
          show (store.current.get? previous.block.id).getD previous.block = previous.block
          rw [hrec]
          rfl
      have hprevId : (if previous.block.id = definition.block.id then definition.block
          else previous.block).id = previous.block.id := by
        split
        · exact Eq.symm ‹_›
        · rfl
      have hmid := current_emptyUnless definition.block.id
        (store.taken.write definition.block) hprev hprevId
      have hgiven : (emptyUnless definition.block.id (store.taken.write definition.block)
          previous.block).read block = block := by
        refine Store.read_of_unrecorded ?_
        rw [hmid, if_neg (fun hc => hne hc.2.symm), Store.current_write,
          if_neg (fun hc => hnew hc.symm)]
        exact hf.unrecorded
      rw [current_emptyUnless _ _ hgiven rfl, hmid, Store.current_write]
      by_cases hi : id = definition.block.id
      · rw [if_neg (fun hc => hnew (hi.symm.trans hc.2)),
          if_neg (fun hc => hc.1 (hc.2.symm.trans hi)), if_pos hi, if_pos hi]
      · rw [if_neg hi, if_neg hi]
        by_cases hb : id = block.id
        · rw [if_pos ⟨fun hc => hnew hc.symm, hb⟩, if_pos hb]
        · rw [if_neg (fun hc => hb hc.2), if_neg hb]
          by_cases hp : id = previous.block.id
          · have hpd : previous.block.id ≠ definition.block.id := fun hc => hi (hp.trans hc)
            rw [if_pos ⟨hpd, hp⟩, if_pos hp, if_neg hpd]
          · rw [if_neg (fun hc => hp hc.2), if_neg hp]
            rfl

/-- A definition gives away no identity, or the next one. -/
theorem define_next (hs : Settled store registry) (hf : store.Fresh block) (name : String)
    (owner : Nat) :
    (registry.define store name block owner).store.next
      = if (registry.get? name).isSome then store.next + 1 else store.next := by
  cases h : registry.get? name with
  | none =>
      rw [define_of_new hf h]
      rfl
  | some previous =>
      rw [define_of_known hs hf h]
      have hempty : ∀ (result : BlockId) (store : Store α) (block : Block BlockId α),
          (emptyUnless result store block).next = store.next := by
        intro result store block
        unfold emptyUnless
        split <;> rfl
      rw [hempty, hempty]
      rfl

theorem next_le_define (hs : Settled store registry) (hf : store.Fresh block) (name : String)
    (owner : Nat) : store.next ≤ (registry.define store name block owner).store.next := by
  rw [define_next hs hf]
  split
  · exact Nat.le_succ _
  · exact Nat.le_refl _

/-- A fresh block is not the block of any name. -/
theorem Settled.ne_of_fresh (hs : Settled store registry) (hf : store.Fresh block) {name : String}
    {definition : Definition α} (h : registry.get? name = some definition) :
    definition.block.id ≠ block.id := fun he =>
  nomatch (he ▸ hs.recorded h).symm.trans hf.unrecorded

/-- The block of a new definition is the block of no other name. -/
theorem Settled.ne_of_other (hs : Settled store registry) (hf : store.Fresh block)
    {name other : String} (owner : Nat) (hne : other ≠ name) {definition : Definition α}
    (h : registry.get? other = some definition) :
    definition.block.id ≠ (definitionAfter store registry name block owner).block.id := by
  rcases definitionAfter_id store registry block name owner with ⟨-, hid⟩ | ⟨previous, hp, hid⟩
  · rw [hid]
    exact hs.ne_of_fresh hf h
  · rw [hid]
    split
    · exact Nat.ne_of_lt (hs.bounded (hs.recorded h)).1
    · exact fun he => hne (hs.separate h hp he)

/-- A definition under another name leaves a named block as it was. -/
theorem current_define_other (hs : Settled store registry) (hf : store.Fresh block)
    {name other : String} (owner : Nat) (hne : other ≠ name) {definition : Definition α}
    (h : registry.get? other = some definition) :
    (registry.define store name block owner).store.current.get? definition.block.id
      = some definition.block := by
  rw [current_define hs hf name owner]
  simp only [if_neg (hs.ne_of_other hf owner hne h), if_neg (hs.ne_of_fresh hf h)]
  cases hp : registry.get? name with
  | none => exact hs.recorded h
  | some previous =>
      simp only [if_neg (fun he => hne (hs.separate h hp he))]
      exact hs.recorded h

/-- **One definition.**  Defining a name with a fresh block keeps a registry settled. -/
theorem define_settled (hs : Settled store registry) (hf : store.Fresh block) (name : String)
    (owner : Nat) :
    Settled (registry.define store name block owner).store
      (registry.define store name block owner).registry := by
  have hreg := define_registry hs hf name owner
  constructor
  case recorded =>
    intro other definition h
    rw [hreg, OrderedMap.get?_insert] at h
    by_cases hn : other = name
    · rw [if_pos hn] at h
      rw [← Option.some.inj h, current_define hs hf name owner, if_pos rfl]
    · rw [if_neg hn] at h
      exact current_define_other hs hf owner hn h
  case separate =>
    intro first second d e hd he hid
    rw [hreg, OrderedMap.get?_insert] at hd he
    by_cases hfirst : first = name <;> by_cases hsecond : second = name
    · exact hfirst.trans hsecond.symm
    · -- the block that was defined is that of no other name
      rw [if_pos hfirst] at hd
      rw [if_neg hsecond] at he
      exact absurd (hid.symm.trans (congrArg (·.block.id) (Option.some.inj hd).symm))
        (hs.ne_of_other hf owner hsecond he)
    · rw [if_neg hfirst] at hd
      rw [if_pos hsecond] at he
      exact absurd (hid.trans (congrArg (·.block.id) (Option.some.inj he).symm))
        (hs.ne_of_other hf owner hfirst hd)
    · rw [if_neg hfirst] at hd
      rw [if_neg hsecond] at he
      exact hs.separate hd he hid
  case bounded =>
    intro id state h
    have hle := next_le_define hs hf name owner
    rw [current_define hs hf name owner] at h
    split at h
    · next hid =>
        refine ⟨?_, (congrArg Block.id (Option.some.inj h)).symm.trans hid.symm⟩
        -- the new identity is that of the block, of the earlier definition, or a fresh one
        rcases definitionAfter_id store registry block name owner with ⟨-, hd⟩ | ⟨previous, hp, hd⟩
        · rw [hid, hd]
          exact Nat.lt_of_lt_of_le hf.given hle
        · have hnext : (registry.define store name block owner).store.next = store.next + 1 := by
            rw [define_next hs hf, hp]
            rfl
          rw [hid, hd, hnext]
          split
          · exact Nat.lt_succ_self _
          · exact Nat.lt_succ_of_lt (hs.bounded (hs.recorded hp)).1
    · split at h
      · -- the block that was handed in, emptied
        next hid =>
          refine ⟨?_, (congrArg Block.id (Option.some.inj h)).symm.trans hid.symm⟩
          rw [hid]
          exact Nat.lt_of_lt_of_le hf.given hle
      · cases hp : registry.get? name with
        | none =>
            rw [hp] at h
            have hb := hs.bounded h
            exact ⟨Nat.lt_of_lt_of_le hb.1 hle, hb.2⟩
        | some previous =>
            simp only [hp] at h
            split at h
            · next hid =>
                have hb := hs.bounded (hs.recorded hp)
                exact ⟨hid ▸ Nat.lt_of_lt_of_le hb.1 hle,
                  (congrArg Block.id (Option.some.inj h)).symm.trans hid.symm⟩
            · have hb := hs.bounded h
              exact ⟨Nat.lt_of_lt_of_le hb.1 hle, hb.2⟩

/-- Another fresh block stays fresh when a name is defined. -/
theorem fresh_define (hs : Settled store registry) (hf : store.Fresh block) (name : String)
    (owner : Nat) {other : Block BlockId α} (ho : store.Fresh other) (hne : other.id ≠ block.id) :
    (registry.define store name block owner).store.Fresh other := by
  constructor
  case given => exact Nat.lt_of_lt_of_le ho.given (next_le_define hs hf name owner)
  case unrecorded =>
    have hd : other.id ≠ (definitionAfter store registry name block owner).block.id := by
      rcases definitionAfter_id store registry block name owner with ⟨-, hid⟩ | ⟨previous, hp, hid⟩
      · rw [hid]
        exact hne
      · rw [hid]
        split
        · exact Nat.ne_of_lt ho.given
        · exact fun he => hs.ne_of_fresh ho hp he.symm
    rw [current_define hs hf name owner]
    simp only [if_neg hd, if_neg hne]
    cases hp : registry.get? name with
    | none => exact ho.unrecorded
    | some previous =>
        simp only [if_neg (hs.ne_of_fresh ho hp).symm]
        exact ho.unrecorded

end Define

end Registry

end Stencil
