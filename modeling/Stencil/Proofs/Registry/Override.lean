import Stencil.Proofs.Registry.Inheritance

/-! # Overrides — when a layout can undo what a derived template says

    A definition of a layout never touches an override.  A second definition of
    the layout does: the registry then takes the layout for the owner of the
    name, and combines the two as if both came from one template.  So the
    repeats of the templates above the most derived one decide:

    * an override that replaces is left as it is exactly when the repeats that
      last (`lasting`) bring nothing, and none of them replaces unless the
      override is empty already;
    * the nodes of one that appends or prepends are all kept exactly when no
      repeat replaces.

    The effect of a chain (`Chain.effect`) carries both directions: without a
    repeat that replaces it gives back every node of the first template
    (`Keeps`), and after one it has none of them left (`Drops`). -/

namespace Stencil

variable {α : Type}

/-- Of definitions of one template, those that decide its content: from the last one that replaces
    on, or all of them. -/
def lasting : List (Block BlockId α) → List (Block BlockId α)
  | [] => []
  | block :: blocks => if blocks.any Block.replaces then lasting blocks else block :: blocks

theorem effect_of_replaces {block : Block BlockId α} (h : block.replaces = true) (below : List α) :
    block.effect below = block.nodes := by
  rw [Block.effect, eq_of_beq h]
  rfl

theorem effect_perm {block : Block BlockId α} (h : block.replaces = false) (below : List α) :
    (block.effect below).Perm (below ++ block.nodes) := by
  unfold Block.effect
  cases hm : block.props.mode with
  | replace =>
      rw [Block.replaces, hm] at h
      exact nomatch h
  | append => exact List.Perm.refl _
  | prepend => exact List.perm_append_comm

theorem mem_effect {block : Block BlockId α} {below : List α} {node : α}
    (h : node ∈ block.effect below) : node ∈ below ∨ node ∈ block.nodes := by
  cases hr : block.replaces with
  | true => exact Or.inr (effect_of_replaces hr below ▸ h)
  | false => exact List.mem_append.mp ((effect_perm hr below).mem_iff.mp h)

theorem mem_of_mem_lasting {blocks : List (Block BlockId α)} {block : Block BlockId α}
    (h : block ∈ lasting blocks) : block ∈ blocks := by
  induction blocks with
  | nil => exact h
  | cons first blocks ih =>
      rw [lasting] at h
      split at h
      · exact List.mem_cons_of_mem _ (ih h)
      · exact h

theorem lasting_of_none_replaces {blocks : List (Block BlockId α)}
    (h : blocks.any Block.replaces = false) : lasting blocks = blocks := by
  cases blocks with
  | nil => rfl
  | cons block blocks =>
      rw [List.any_cons, Bool.or_eq_false_iff] at h
      rw [lasting, h.2, if_neg Bool.false_ne_true]

/-- What the definitions of one template leave: the nodes of the lasting ones, and what was below
    unless one of them replaces it. -/
theorem foldl_effect_perm (blocks : List (Block BlockId α)) :
    ∀ below : List α, (blocks.foldl (fun content block => block.effect content) below).Perm
      ((if blocks.any Block.replaces then [] else below)
        ++ (lasting blocks).flatMap Block.nodes) := by
  induction blocks with
  | nil =>
      intro below
      rw [List.any_nil, if_neg Bool.false_ne_true]
      exact (List.append_nil below).symm ▸ List.Perm.refl _
  | cons block blocks ih =>
      intro below
      refine (ih (block.effect below)).trans ?_
      rw [List.any_cons, lasting]
      cases hrest : blocks.any Block.replaces with
      | true =>
          rw [Bool.or_true, if_pos rfl, if_pos rfl]
          exact List.Perm.refl _
      | false =>
          rw [Bool.or_false, if_neg Bool.false_ne_true, lasting_of_none_replaces hrest,
            if_neg Bool.false_ne_true, List.flatMap_cons]
          cases hr : block.replaces with
          | true =>
              rw [if_pos rfl, effect_of_replaces hr]
              exact List.Perm.refl _
          | false =>
              rw [if_neg Bool.false_ne_true, ← List.append_assoc]
              exact (effect_perm hr below).append_right _

/-! ## An override that replaces -/

theorem foldl_effect_const (blocks : List (Block BlockId α))
    (h : blocks.any Block.replaces = true) :
    ∀ below other : List α, blocks.foldl (fun content block => block.effect content) below
      = blocks.foldl (fun content block => block.effect content) other := by
  induction blocks with
  | nil => exact nomatch h
  | cons block blocks ih =>
      intro below other
      cases hr : block.replaces with
      | true => rw [List.foldl_cons, List.foldl_cons, effect_of_replaces hr, effect_of_replaces hr]
      | false =>
          rw [List.any_cons, hr, Bool.false_or] at h
          exact ih h _ _

/-- A template whose definitions replace gives the same whatever is below it. -/
theorem effect_const {contribution : Contribution α} (h : contribution.replaces = true)
    (below : List α) : contribution.effect below = contribution.effect [] :=
  foldl_effect_const contribution.blocks h below []

/-- The templates above one that replaces change its content by their repeats alone. -/
theorem foldl_onto_const (above : Chain α) :
    ∀ {effect : List α → List α} {content : List α}, (∀ below, effect below = content) →
      ∀ below, above.foldl Contribution.onto effect below
        = above.repeats.foldl (fun content block => block.effect content) content := by
  induction above with
  | nil => intro effect content h below; exact h below
  | cons contribution above ih =>
      intro effect content h below
      -- the first definition of a layout is lost below the content, its repeats are not
      have honto : ∀ below, contribution.onto effect below
          = contribution.blocks.tail.foldl (fun content block => block.effect content) content := by
        intro below
        obtain ⟨owner, blocks⟩ := contribution
        cases blocks with
        | nil => exact h below
        | cons block blocks =>
            show blocks.foldl _ (effect (block.effect below)) = _
            rw [h]
            rfl
      rw [List.foldl_cons, ih honto below]
      show _ = ((contribution.blocks.tail ++ Chain.repeats above).foldl _ content)
      rw [List.foldl_append]

/-! ## An override that appends or prepends -/

/-- An effect that gives certain nodes back, whatever is below it. -/
def Keeps (nodes : List α) (effect : List α → List α) : Prop :=
  ∀ below, ∀ node ∈ nodes, node ∈ effect below

/-- An effect that brings none of certain nodes in. -/
def Drops (nodes : List α) (effect : List α → List α) : Prop :=
  ∀ below, (∀ node ∈ nodes, node ∉ below) → ∀ node ∈ nodes, node ∉ effect below

/-- The definitions of a template that never replaces keep what is below them. -/
theorem mem_foldl_effect {blocks : List (Block BlockId α)}
    (h : blocks.any Block.replaces = false) {below : List α} {node : α} :
    node ∈ blocks.foldl (fun content block => block.effect content) below
      ↔ node ∈ below ∨ ∃ block ∈ blocks, node ∈ block.nodes := by
  rw [(foldl_effect_perm blocks below).mem_iff, h, if_neg Bool.false_ne_true,
    lasting_of_none_replaces h, List.mem_append, List.mem_flatMap]

/-- A template that never replaces keeps the nodes of all its definitions. -/
theorem keeps_effect {contribution : Contribution α} (h : contribution.replaces = false) :
    Keeps contribution.nodes contribution.effect := by
  intro below node hnode
  obtain ⟨block, hblock, hmem⟩ := List.mem_flatMap.mp hnode
  exact (mem_foldl_effect h).mpr (Or.inr ⟨block, hblock, hmem⟩)

/-- Without a repeat that replaces, the templates above keep what an effect keeps. -/
theorem Keeps.foldl_onto {nodes : List α} (above : Chain α) :
    ∀ {effect : List α → List α}, Keeps nodes effect →
      (∀ block ∈ above.repeats, block.replaces = false) →
      Keeps nodes (above.foldl Contribution.onto effect) := by
  induction above with
  | nil => intro effect h _; exact h
  | cons contribution above ih =>
      intro effect h hrep
      obtain ⟨hhere, hrest⟩ := List.forall_mem_append.mp hrep
      refine ih ?_ hrest
      obtain ⟨owner, blocks⟩ := contribution
      cases blocks with
      | nil => exact h
      | cons block blocks =>
          intro below node hnode
          -- the effect keeps the nodes over the first definition, and no repeat removes them
          have hnone : blocks.any Block.replaces = false :=
            List.any_eq_false.mpr fun block hmem => by
              rw [hhere block hmem]
              exact Bool.false_ne_true
          exact (mem_foldl_effect hnone).mpr (Or.inl (h _ node hnode))

/-- Definitions without certain nodes bring none of them in. -/
theorem drops_foldl_effect {nodes : List α} (blocks : List (Block BlockId α))
    (h : ∀ block ∈ blocks, ∀ node ∈ nodes, node ∉ block.nodes) :
    Drops nodes (fun below => blocks.foldl (fun content block => block.effect content) below) := by
  induction blocks with
  | nil => exact fun _ hbelow => hbelow
  | cons block blocks ih =>
      intro below hbelow
      refine ih (fun other hmem => h other (List.mem_cons_of_mem _ hmem)) (block.effect below) ?_
      intro node hnode hmem
      rcases mem_effect hmem with hb | hb
      · exact hbelow node hnode hb
      · exact h block List.mem_cons_self node hnode hb

/-- The templates above bring none of certain nodes in when none of their definitions has one. -/
theorem Drops.foldl_onto {nodes : List α} (above : Chain α) :
    ∀ {effect : List α → List α}, Drops nodes effect →
      (∀ call ∈ above.calls, ∀ node ∈ nodes, node ∉ call.1.nodes) →
      Drops nodes (above.foldl Contribution.onto effect) := by
  induction above with
  | nil => intro effect h _; exact h
  | cons contribution above ih =>
      intro effect h hcalls
      obtain ⟨hhere, hrest⟩ := List.forall_mem_append.mp hcalls
      refine ih ?_ hrest
      obtain ⟨owner, blocks⟩ := contribution
      cases blocks with
      | nil => exact h
      | cons block blocks =>
          -- neither the first definition nor a repeat has one of the nodes
          have hblock : ∀ other ∈ block :: blocks, ∀ node ∈ nodes, node ∉ other.nodes :=
            fun other hmem => hhere (other, owner) (List.mem_map_of_mem hmem)
          intro below hbelow
          refine drops_foldl_effect blocks
            (fun other hmem => hblock other (List.mem_cons_of_mem _ hmem)) _ (h _ ?_)
          intro node hnode hmem
          rcases mem_effect hmem with hb | hb
          · exact hbelow node hnode hb
          · exact hblock block List.mem_cons_self node hnode hb

/-- After a repeat that replaces, none of the nodes from before is left. -/
theorem drops_of_repeat {nodes : List α} (above : Chain α) :
    ∀ {effect : List α → List α}, (∃ block ∈ above.repeats, block.replaces = true) →
      (∀ call ∈ above.calls, ∀ node ∈ nodes, node ∉ call.1.nodes) →
      Drops nodes (above.foldl Contribution.onto effect) := by
  induction above with
  | nil => intro effect h _; obtain ⟨block, hmem, -⟩ := h; exact nomatch hmem
  | cons contribution above ih =>
      intro effect h hcalls
      obtain ⟨hhere, hrest⟩ := List.forall_mem_append.mp hcalls
      obtain ⟨block, hmem, hr⟩ := h
      rcases List.mem_append.mp hmem with hthis | hthat
      · refine Drops.foldl_onto above ?_ hrest
        obtain ⟨owner, blocks⟩ := contribution
        cases blocks with
        | nil => exact nomatch hthis
        | cons first blocks =>
            -- the repeat that replaces stands on top of whatever the effect gives
            intro below _ node hnode hin
            have hany : blocks.any Block.replaces = true := List.any_eq_true.mpr ⟨block, hthis, hr⟩
            have hperm := foldl_effect_perm blocks (effect (first.effect below))
            rw [hany, if_pos rfl, List.nil_append] at hperm
            obtain ⟨other, hother, hnodes⟩ := List.mem_flatMap.mp (hperm.mem_iff.mp hin)
            exact hhere (other, owner)
              (List.mem_map_of_mem (List.mem_cons_of_mem _ (mem_of_mem_lasting hother)))
              node hnode hnodes
      · exact ih ⟨block, hthat, hr⟩ hrest

/-! ## The exact condition -/

/-- Definitions that bring nothing and do not replace change nothing. -/
theorem foldl_effect_of_empty {blocks : List (Block BlockId α)}
    (hfalse : ∀ block ∈ blocks, block.replaces = false)
    (hempty : ∀ block ∈ blocks, block.nodes = []) (content : List α) :
    blocks.foldl (fun content block => block.effect content) content = content := by
  induction blocks with
  | nil => rfl
  | cons block blocks ih =>
      have hstay : block.effect content = content := by
        have hr := hfalse block List.mem_cons_self
        have hnil := hempty block List.mem_cons_self
        unfold Block.replaces at hr
        unfold Block.effect
        rw [hnil]
        cases hm : block.props.mode with
        | replace =>
            rw [hm] at hr
            exact nomatch hr
        | append => exact List.append_nil content
        | prepend => exact List.nil_append content
      rw [List.foldl_cons, hstay]
      exact ih (fun other hmem => hfalse other (List.mem_cons_of_mem _ hmem))
        (fun other hmem => hempty other (List.mem_cons_of_mem _ hmem))

/-- An override that replaces keeps its content exactly when the repeats that last bring nothing,
    and none of them replaces unless there is nothing to lose. -/
theorem foldl_effect_eq_iff {blocks : List (Block BlockId α)} {content : List α}
    (hfresh : ∀ block ∈ blocks, ∀ node ∈ content, node ∉ block.nodes) :
    blocks.foldl (fun content block => block.effect content) content = content
      ↔ (∀ block ∈ lasting blocks, block.nodes = [])
        ∧ (content = [] ∨ ∀ block ∈ blocks, block.replaces = false) := by
  have hperm := foldl_effect_perm blocks content
  have hnone : (lasting blocks).flatMap Block.nodes = []
      ↔ ∀ block ∈ lasting blocks, block.nodes = [] := List.flatMap_eq_nil_iff
  cases hany : blocks.any Block.replaces with
  | true =>
      rw [hany, if_pos rfl, List.nil_append] at hperm
      constructor
      · intro heq
        rw [heq] at hperm
        -- a node of the content would have to come from a definition that has none of them
        have hempty : content = [] := by
          refine List.eq_nil_iff_forall_not_mem.mpr fun node hnode => ?_
          obtain ⟨block, hblock, hmem⟩ := List.mem_flatMap.mp (hperm.mem_iff.mp hnode)
          exact hfresh block (mem_of_mem_lasting hblock) node hnode hmem
        rw [hempty] at hperm
        exact ⟨hnone.mp hperm.symm.eq_nil, Or.inl hempty⟩
      · rintro ⟨hlast, hcontent⟩
        rw [hnone.mpr hlast] at hperm
        rcases hcontent with hempty | hfalse
        · exact hperm.eq_nil.trans hempty.symm
        · obtain ⟨block, hblock, hr⟩ := List.any_eq_true.mp hany
          exact absurd hr (by rw [hfalse block hblock]; exact Bool.false_ne_true)
  | false =>
      have hfalse : ∀ block ∈ blocks, block.replaces = false := fun block hblock =>
        Bool.eq_false_iff.mpr (List.any_eq_false.mp hany block hblock)
      rw [hany, if_neg Bool.false_ne_true] at hperm
      constructor
      · intro heq
        -- nothing was removed, so nothing can have come in
        have hlen := hperm.length_eq
        rw [heq, List.length_append] at hlen
        exact ⟨hnone.mp (List.length_eq_zero_iff.mp (by omega)), Or.inr hfalse⟩
      · rintro ⟨hlast, -⟩
        rw [lasting_of_none_replaces hany] at hlast
        exact foldl_effect_of_empty hfalse hlast content

/-! ## Chains -/

/-- The most derived template that mentions a name, and the templates above it. -/
def Chain.spoken (chain : Chain α) : Chain α :=
  chain.dropWhile fun contribution => contribution.blocks.isEmpty

theorem calls_spoken (chain : Chain α) : chain.spoken.calls = chain.calls := by
  induction chain with
  | nil => rfl
  | cons contribution chain ih =>
      obtain ⟨owner, blocks⟩ := contribution
      cases blocks with
      | nil => exact ih
      | cons block blocks => rfl

theorem blocks_ne_nil_of_spoken {chain : Chain α} {first : Contribution α} {above : Chain α}
    (h : chain.spoken = first :: above) : first.blocks ≠ [] := by
  induction chain with
  | nil => exact nomatch h
  | cons contribution chain ih =>
      obtain ⟨owner, blocks⟩ := contribution
      cases blocks with
      | nil => exact ih h
      | cons block blocks =>
          rw [← (List.cons.inj h).1]
          exact List.cons_ne_nil _ _

theorem effect_spoken (chain : Chain α) : chain.spoken.effect = chain.effect := by
  induction chain with
  | nil => rfl
  | cons contribution chain ih =>
      obtain ⟨owner, blocks⟩ := contribution
      cases blocks with
      | nil => exact ih
      | cons block blocks => rfl

theorem exists_call_of_mem_repeats {chain : Chain α} {block : Block BlockId α}
    (h : block ∈ chain.repeats) : ∃ owner, (block, owner) ∈ chain.calls := by
  obtain ⟨contribution, hmem, hblock⟩ := List.mem_flatMap.mp h
  exact ⟨contribution.owner, List.mem_flatMap.mpr
    ⟨contribution, hmem, List.mem_map_of_mem (List.mem_of_mem_tail hblock)⟩⟩

theorem mem_nodes_of_mem_effect {contribution : Contribution α} {node : α}
    (h : node ∈ contribution.effect []) : node ∈ contribution.nodes := by
  have hperm := foldl_effect_perm contribution.blocks []
  rw [ite_self, List.nil_append] at hperm
  obtain ⟨block, hblock, hnode⟩ := List.mem_flatMap.mp (hperm.mem_iff.mp h)
  exact List.mem_flatMap.mpr ⟨block, mem_of_mem_lasting hblock, hnode⟩

theorem flatMap_calls (contribution : Contribution α) :
    contribution.calls.flatMap (fun call => call.1.nodes) = contribution.nodes := by
  rw [Contribution.calls, List.flatMap_map]
  rfl

/-- The content of a chain, seen from its most derived template. -/
theorem override_effect_iff {first : Contribution α} {above : Chain α}
    (hnodes : ((Chain.calls (first :: above)).flatMap fun call => call.1.nodes).Nodup) :
    (first.replaces = true → (Chain.effect (first :: above) [] = first.effect []
      ↔ (∀ block ∈ lasting above.repeats, block.nodes = [])
        ∧ (first.effect [] = [] ∨ ∀ block ∈ above.repeats, block.replaces = false)))
    ∧ (first.replaces = false →
      ((∀ node ∈ first.nodes, node ∈ Chain.effect (first :: above) [])
        ↔ first.nodes = [] ∨ ∀ block ∈ above.repeats, block.replaces = false)) := by
  have heffect : Chain.effect (first :: above) = above.foldl Contribution.onto first.effect := by
    show above.foldl Contribution.onto (first.onto id) = _
    rw [Registry.onto_id]
  have hdisjoint : ∀ call ∈ above.calls, ∀ node ∈ first.nodes, node ∉ call.1.nodes := by
    intro call hcall node hnode hin
    have hsplit : ((Chain.calls (first :: above)).flatMap fun call => call.1.nodes)
        = first.nodes ++ above.calls.flatMap fun call => call.1.nodes := by
      show ((first.calls ++ above.calls).flatMap fun call => call.1.nodes) = _
      rw [List.flatMap_append, flatMap_calls]
    rw [hsplit] at hnodes
    exact (List.nodup_append.mp hnodes).2.2 node hnode node
      (List.mem_flatMap.mpr ⟨call, hcall, hin⟩) rfl
  rw [heffect]
  constructor
  · intro hr
    -- the content does not depend on what is below: only the repeats act on it
    rw [foldl_onto_const above (effect_const hr) []]
    refine foldl_effect_eq_iff fun block hblock node hnode => ?_
    obtain ⟨owner, hcall⟩ := exists_call_of_mem_repeats hblock
    exact hdisjoint (block, owner) hcall node (mem_nodes_of_mem_effect hnode)
  · intro hr
    constructor
    · intro hkept
      by_cases hnil : first.nodes = []
      · exact Or.inl hnil
      · -- a repeat that replaces would remove this node
        obtain ⟨node, hmem⟩ := List.exists_mem_of_ne_nil first.nodes hnil
        refine Or.inr fun block hblock => ?_
        cases hb : block.replaces with
        | false => rfl
        | true =>
            exact absurd (hkept node hmem) (drops_of_repeat above ⟨block, hblock, hb⟩ hdisjoint []
              (fun _ _ => List.not_mem_nil) node hmem)
    · rintro (hnil | hfalse) node hnode
      · exact absurd hnode (hnil ▸ List.not_mem_nil)
      · exact Keeps.foldl_onto above (keeps_effect hr) hfalse [] node hnode

namespace Registry

/-- **When an override is kept.**  The registered block holds exactly the content of the most
    derived template that mentions the name, if that replaces, when and only when the repeats of
    the templates above it bring nothing that lasts and none of them replaces (unless there is
    nothing to lose).  If it appends or prepends, the block holds all its nodes when and only when
    none of those repeats replaces (unless it has no nodes). -/
theorem override_kept_iff {store : Store α} {registry : Registry α} {name : String}
    (hs : Settled store registry) (hnew : registry.get? name = none) (chain : Chain α)
    (howners : (chain.map Contribution.owner).Nodup) (hf : FreshCalls store chain.calls)
    (hnodes : (chain.calls.flatMap fun call => call.1.nodes).Nodup)
    {first : Contribution α} {above : Chain α} (hfirst : chain.spoken = first :: above) :
    ∃ defined, run store registry name chain.calls = some defined
      ∧ defined.registry.block? name = some defined.block
      ∧ (first.replaces = true → ((defined.store.read defined.block).nodes = first.effect []
          ↔ (∀ block ∈ lasting above.repeats, block.nodes = [])
            ∧ (first.effect [] = [] ∨ ∀ block ∈ above.repeats, block.replaces = false)))
      ∧ (first.replaces = false →
          ((∀ node ∈ first.nodes, node ∈ (defined.store.read defined.block).nodes)
            ↔ first.nodes = [] ∨ ∀ block ∈ above.repeats, block.replaces = false)) := by
  have hcalls : chain.calls = Chain.calls (first :: above) := by rw [← hfirst, calls_spoken]
  have hne : chain.calls ≠ [] := by
    intro hnil
    rw [hcalls] at hnil
    exact blocks_ne_nil_of_spoken hfirst
      (List.map_eq_nil_iff.mp (List.append_eq_nil_iff.mp hnil).1)
  obtain ⟨defined, hrun, hblock, hcontent⟩ := nodes_of_run hs hnew chain howners hf hne
  rw [← effect_spoken, hfirst] at hcontent
  rw [hcalls] at hnodes
  obtain ⟨hreplaces, hkeeps⟩ := override_effect_iff hnodes
  exact ⟨defined, hrun, hblock, hcontent ▸ hreplaces, hcontent ▸ hkeeps⟩

/-- A chain of an override and a layout that mentions the name twice. -/
def twiceInLayout : Chain Nat :=
  [⟨1, [⟨0, 1, {}, [10]⟩]⟩, ⟨2, [⟨1, 1, {}, [20]⟩, ⟨2, 2, {}, [21]⟩]⟩]

/-- The second mention is a repeat with a node, so the override is not kept. -/
theorem override_kept_iff_twiceInLayout :
    (twiceInLayout.map Contribution.owner).Nodup
      ∧ (twiceInLayout.calls.flatMap fun call => call.1.nodes).Nodup
      ∧ ∃ defined, run { next := 3 } .empty "content" twiceInLayout.calls = some defined
        ∧ Registry.block? defined.registry "content" = some defined.block
        ∧ ¬ ((∀ block ∈ lasting [⟨2, 2, {}, [21]⟩], (block : Block BlockId Nat).nodes = [])
          ∧ ([10] = [] ∨ ∀ block ∈ [⟨2, 2, {}, [21]⟩],
            (block : Block BlockId Nat).replaces = false))
        ∧ (defined.store.read defined.block).nodes ≠ [10] := by
  have howners : (twiceInLayout.map Contribution.owner).Nodup := by decide
  have hnodes : (twiceInLayout.calls.flatMap fun call => call.1.nodes).Nodup := by decide
  have hf : FreshCalls { next := 3 } twiceInLayout.calls :=
    freshCalls_of_given (by decide) (by decide)
  obtain ⟨defined, hrun, hblock, hreplaces, -⟩ :=
    override_kept_iff (settled_empty 3) rfl twiceInLayout howners hf hnodes rfl
  have hharm : ¬ ((∀ block ∈ lasting [⟨2, 2, {}, [21]⟩], (block : Block BlockId Nat).nodes = [])
      ∧ ([10] = [] ∨ ∀ block ∈ [⟨2, 2, {}, [21]⟩],
        (block : Block BlockId Nat).replaces = false)) := by decide
  exact ⟨howners, hnodes, defined, hrun, hblock, hharm,
    fun hkept => hharm ((hreplaces rfl).mp hkept)⟩

/-- An override that replaces is lost to a layout that mentions the name twice: the block holds
    what the second mention says. -/
theorem override_lost_twiceInLayout :
    ∃ first above defined, twiceInLayout.spoken = first :: above ∧ first.replaces = true
      ∧ run { next := 3 } .empty "content" twiceInLayout.calls = some defined
      ∧ (defined.store.read defined.block).nodes = [21]
      ∧ (defined.store.read defined.block).nodes ≠ first.effect [] :=
  ⟨_, _, _, rfl, rfl, rfl, rfl, by decide⟩

end Registry

end Stencil
