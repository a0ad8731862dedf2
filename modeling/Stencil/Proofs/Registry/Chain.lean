import Stencil.Proofs.Registry.Settled

/-! # Chains of definitions — what can become of a named block

    The meaning of a chain of templates is read from the layout upwards: every
    definition turns what is below it into something else (`Block.effect`), and
    the block holds what the effects make of nothing (`Chain.content`).  The
    registry works the other way round, from the most derived template down,
    with a head and a tail that wait for the content of the layouts.

    This file builds the bridge: `Evolves` lists what can become of one
    definition, step by step, with neither store nor identities, and
    `run_evolves` shows that every run of the registry over fresh blocks is such
    a list. -/

namespace Stencil

variable {α : Type}

/-- What a definition of a mode makes of the content below it. -/
def BlockMode.effect : BlockMode → List α → List α → List α
  | .replace, content, _ => content
  | .append, content, below => below ++ content
  | .prepend, content, below => content ++ below

/-- What a block makes of the content below it. -/
def Block.effect (block : Block BlockId α) (below : List α) : List α :=
  block.props.mode.effect block.nodes below

/-- Whether a block replaces what is below it. -/
def Block.replaces (block : Block BlockId α) : Bool := block.props.mode == .replace

/-- What one template of a chain says about a name: its definitions in source order. -/
structure Contribution (α : Type) where
  owner : Nat
  blocks : List (Block BlockId α) := []

namespace Contribution

/-- What the definitions of a template make of the content below them; a later one works on what
    an earlier one gives. -/
def effect (contribution : Contribution α) (below : List α) : List α :=
  contribution.blocks.foldl (fun content block => block.effect content) below

/-- Whether the combined mode of a template's definitions is to replace. -/
def replaces (contribution : Contribution α) : Bool := contribution.blocks.any Block.replaces

/-- The nodes of all definitions of a template. -/
def nodes (contribution : Contribution α) : List α := contribution.blocks.flatMap Block.nodes

/-- The definitions of a template, each with its owner. -/
def calls (contribution : Contribution α) : List (Block BlockId α × Nat) :=
  contribution.blocks.map fun block => (block, contribution.owner)

end Contribution

/-- What the templates of a chain say about a name, the most derived template first. -/
abbrev Chain (α : Type) := List (Contribution α)

namespace Chain

/-- What the effects of a chain make of nothing, the one of the layout applied first. -/
def content (chain : Chain α) : List α := chain.foldr Contribution.effect []

/-- The definitions of a chain in the order in which they are registered. -/
def calls (chain : Chain α) : List (Block BlockId α × Nat) := chain.flatMap Contribution.calls

/-- The definitions by which templates mention a name again after their first mention of it. -/
def repeats (chain : Chain α) : List (Block BlockId α) :=
  chain.flatMap fun contribution => contribution.blocks.tail

end Chain

namespace Registry

/-- Defines a name by further blocks, each with its owner. -/
def runFrom (name : String) (defined : Defined α) (calls : List (Block BlockId α × Nat)) :
    Defined α :=
  calls.foldl (fun defined call => defined.registry.define defined.store name call.1 call.2)
    defined

/-- Defines a name by blocks, each with its owner; the outcome is that of the last one. -/
def run (store : Store α) (registry : Registry α) (name : String) :
    List (Block BlockId α × Nat) → Option (Defined α)
  | [] => none
  | call :: calls => some (runFrom name (registry.define store name call.1 call.2) calls)

/-- What a list of further definitions can make of a definition, whatever the identities of new
    blocks are. -/
inductive Evolves : Definition α → List (Block BlockId α × Nat) → Definition α → Prop where
  | done (definition : Definition α) : Evolves definition [] definition
  | further (id : BlockId) {previous last : Definition α} {block : Block BlockId α} {owner : Nat}
      {calls : List (Block BlockId α × Nat)} :
      Evolves (step id previous block owner) calls last →
      Evolves previous ((block, owner) :: calls) last

/-- A list of definitions in two parts has a definition in between. -/
theorem Evolves.split {first last : Definition α} {calls more : List (Block BlockId α × Nat)}
    (h : Evolves first (calls ++ more) last) :
    ∃ middle, Evolves first calls middle ∧ Evolves middle more last := by
  induction calls generalizing first with
  | nil => exact ⟨first, .done first, h⟩
  | cons call calls ih =>
      cases h with
      | further id h =>
          obtain ⟨middle, hfirst, hlast⟩ := ih h
          exact ⟨middle, .further id hfirst, hlast⟩

/-- Blocks that were just made, each with an identity of its own. -/
structure FreshCalls (store : Store α) (calls : List (Block BlockId α × Nat)) : Prop where
  fresh : ∀ call ∈ calls, store.Fresh call.1
  distinct : (calls.map fun call => call.1.id).Nodup

/-- Blocks with different given identities are fresh in a store that records nothing. -/
theorem freshCalls_of_given {next : BlockId} {calls : List (Block BlockId α × Nat)}
    (hgiven : ∀ call ∈ calls, call.1.id < next)
    (hdistinct : (calls.map fun call => call.1.id).Nodup) : FreshCalls { next } calls where
  fresh := fun call hcall => ⟨hgiven call hcall, rfl⟩
  distinct := hdistinct

/-- After a definition the blocks of the others are fresh still. -/
theorem FreshCalls.define {store : Store α} {registry : Registry α} {call : Block BlockId α × Nat}
    {calls : List (Block BlockId α × Nat)} (hs : Settled store registry)
    (h : FreshCalls store (call :: calls)) (name : String) :
    FreshCalls (registry.define store name call.1 call.2).store calls := by
  obtain ⟨hid, hdistinct⟩ := List.nodup_cons.mp h.distinct
  refine ⟨fun other hother => ?_, hdistinct⟩
  refine fresh_define hs (h.fresh call List.mem_cons_self) name call.2
    (h.fresh other (List.mem_cons_of_mem _ hother)) fun he => hid ?_
  exact List.mem_map.mpr ⟨other, hother, he⟩

/-- The outcome of the latest definition of a name, in a settled registry. -/
structure Standing (name : String) (defined : Defined α) (definition : Definition α) : Prop where
  settled : Settled defined.store defined.registry
  registered : defined.registry.get? name = some definition
  block : defined.block = definition.block

/-- **The step of a run.**  A definition of a fresh block stands. -/
theorem standing_define {store : Store α} {registry : Registry α} {block : Block BlockId α}
    (hs : Settled store registry) (hf : store.Fresh block) (name : String) (owner : Nat) :
    Standing name (registry.define store name block owner)
      (definitionAfter store registry name block owner) where
  settled := define_settled hs hf name owner
  registered := by
    rw [define_registry hs hf, OrderedMap.get?_insert_self]
  block := define_block hs hf name owner

/-- **A whole run.**  What stands at the end of a run has evolved from what stood before. -/
theorem runFrom_evolves {name : String} (calls : List (Block BlockId α × Nat)) :
    ∀ {defined : Defined α} {definition : Definition α}, Standing name defined definition →
      FreshCalls defined.store calls →
      ∃ last, Standing name (runFrom name defined calls) last ∧ Evolves definition calls last := by
  induction calls with
  | nil => intro defined definition h _; exact ⟨definition, h, .done definition⟩
  | cons call calls ih =>
      intro defined definition h hf
      have hstand := standing_define h.settled (hf.fresh call List.mem_cons_self) name call.2
      have hafter : definitionAfter defined.store defined.registry name call.1 call.2
          = step defined.store.next definition call.1 call.2 := by
        rw [definitionAfter, h.registered]
      rw [hafter] at hstand
      obtain ⟨last, hlast, hev⟩ := ih hstand (hf.define h.settled name)
      exact ⟨last, hlast, .further defined.store.next hev⟩

/-- What stands at the end of a run under a new name has evolved from its first definition. -/
theorem run_evolves {store : Store α} {registry : Registry α} {name : String}
    {call : Block BlockId α × Nat} {calls : List (Block BlockId α × Nat)}
    (hs : Settled store registry) (hnew : registry.get? name = none)
    (hf : FreshCalls store (call :: calls)) :
    ∃ defined last, run store registry name (call :: calls) = some defined
      ∧ Standing name defined last ∧ Evolves (initial call.1 call.2) calls last := by
  have hstand := standing_define hs (hf.fresh call List.mem_cons_self) name call.2
  have hafter : definitionAfter store registry name call.1 call.2 = initial call.1 call.2 := by
    rw [definitionAfter, hnew]
  rw [hafter] at hstand
  obtain ⟨last, hlast, hev⟩ := runFrom_evolves calls hstand (hf.define hs name)
  exact ⟨_, last, rfl, hlast, hev⟩

/-- A block that stands is registered, and holds in the store what its definition says. -/
theorem Standing.holds {name : String} {defined : Defined α} {definition : Definition α}
    (h : Standing name defined definition) :
    defined.registry.block? name = some defined.block
      ∧ (defined.store.read defined.block).nodes = definition.block.nodes := by
  constructor
  · rw [block?, h.registered, h.block]
    rfl
  · rw [h.block, Store.read_of_current (h.settled.recorded h.registered)]

end Registry

end Stencil
