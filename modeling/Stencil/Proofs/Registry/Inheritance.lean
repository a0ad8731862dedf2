import Stencil.Proofs.Registry.Chain

/-! # Inheritance — a chain means the composition of its effects

    `Covers` ties what the registry keeps of a definition (content, mode, head
    and tail) to an effect: a definition that replaces stands for a constant,
    any other one puts head and tail around what is below it.  Each of the three
    ways in which a definition comes about keeps the tie:

    * a first definition covers its own effect;
    * a later one of the same template is applied on top of it;
    * one of a layout is applied below it.

    So every chain leaves its block with what `Chain.effect` makes of nothing.
    When only the first template repeats the name, that is the composition of
    the effects, `Chain.content`. -/

namespace Stencil

variable {α : Type}

/-- What a template adds to the effect of those below it in the chain: its first mention of the
    name goes below them, the further ones on top. -/
def Contribution.onto (effect : List α → List α) (contribution : Contribution α) :
    List α → List α :=
  match contribution.blocks with
  | [] => effect
  | block :: blocks => fun below =>
      blocks.foldl (fun content block => block.effect content) (effect (block.effect below))

/-- The effect of a chain in which every template may mention the name any number of times. -/
def Chain.effect (chain : Chain α) : List α → List α := chain.foldl Contribution.onto id

namespace Registry

/-- A definition stands for an effect: it holds what the effect makes of nothing, and its mode,
    head and tail tell what the effect makes of anything else. -/
structure Covers (definition : Definition α) (effect : List α → List α) : Prop where
  content : definition.block.nodes = effect []
  replaces : definition.mode = .replace → ∀ below, effect below = definition.block.nodes
  wraps : definition.mode ≠ .replace →
    ∀ below, effect below = definition.head ++ below ++ definition.tail

/-- A first definition covers its own effect. -/
theorem covers_initial (block : Block BlockId α) (owner : Nat) :
    Covers (initial block owner) block.effect := by
  unfold initial Block.effect
  cases block.props.mode with
  | replace => exact ⟨rfl, fun _ _ => rfl, fun h => absurd rfl h⟩
  | append => exact ⟨rfl, fun h => (nomatch h), fun _ _ => rfl⟩
  | prepend =>
      exact ⟨(List.append_nil _).symm, fun h => (nomatch h), fun _ _ => (List.append_nil _).symm⟩

/-- A later definition of the same template acts on what the earlier ones give. -/
theorem Covers.sequential {definition : Definition α} {effect : List α → List α}
    (h : Covers definition effect) (id : BlockId) (block : Block BlockId α) (owner : Nat) :
    Covers (sequential id definition definition.block.nodes block owner)
      (fun below => block.effect (effect below)) := by
  unfold Registry.sequential Block.effect
  cases hmode : block.props.mode with
  | replace => exact ⟨rfl, fun _ _ => rfl, fun hne => absurd rfl hne⟩
  | append =>
      refine ⟨congrArg (· ++ block.nodes) h.content, fun hr below => ?_, fun hw below => ?_⟩
      · exact congrArg (· ++ block.nodes) (h.replaces hr below)
      · have hw' : definition.mode ≠ .replace := hw
        have hbne : (definition.mode != .replace) = true := bne_iff_ne.mpr hw'
        simp only [BlockMode.effect, h.wraps hw' below, hbne, if_true, List.append_assoc]
  | prepend =>
      refine ⟨congrArg (block.nodes ++ ·) h.content, fun hr below => ?_, fun hw below => ?_⟩
      · exact congrArg (block.nodes ++ ·) (h.replaces hr below)
      · have hw' : definition.mode ≠ .replace := hw
        have hbne : (definition.mode != .replace) = true := bne_iff_ne.mpr hw'
        simp only [BlockMode.effect, h.wraps hw' below, hbne, if_true, List.append_assoc]

/-- A definition of a layout leaves one that replaces as it is. -/
theorem inherited_of_replace {previous : Definition α} (h : previous.mode = .replace)
    (kept block : Block BlockId α) (owner : Nat) :
    inherited previous kept block owner = { block := kept, mode := .replace, owner } := by
  unfold inherited
  rw [h]

/-- A definition of a layout goes between head and tail of one that does not replace. -/
theorem inherited_of_wraps {previous : Definition α} (h : previous.mode ≠ .replace)
    (kept block : Block BlockId α) (owner : Nat) :
    inherited previous kept block owner
      = { block := { kept with nodes := previous.head ++ block.nodes ++ previous.tail },
          mode := block.props.mode, owner,
          head := match block.props.mode with
            | .replace => []
            | .append => previous.head
            | .prepend => previous.head ++ block.nodes
          tail := match block.props.mode with
            | .replace => []
            | .append => block.nodes ++ previous.tail
            | .prepend => previous.tail } := by
  unfold inherited
  cases hm : previous.mode with
  | replace => exact absurd hm h
  | append => cases block.props.mode <;> rfl
  | prepend => cases block.props.mode <;> rfl

/-- A definition of a layout acts on what is below it, before the earlier ones do. -/
theorem Covers.inherited {definition : Definition α} {effect : List α → List α}
    (h : Covers definition effect) (block : Block BlockId α) (owner : Nat) :
    Covers (inherited definition definition.block block owner)
      (fun below => effect (block.effect below)) := by
  -- what replaces does not see what is below it
  by_cases hr : definition.mode = .replace
  · have hconst := h.replaces hr
    rw [inherited_of_replace hr]
    exact ⟨(hconst _).symm, fun _ _ => hconst _, fun hne => absurd rfl hne⟩
  · have hwrap := h.wraps hr
    rw [inherited_of_wraps hr]
    unfold Block.effect
    cases block.props.mode with
    | replace => exact ⟨(hwrap _).symm, fun _ _ => hwrap _, fun hne => absurd rfl hne⟩
    | append =>
        refine ⟨?_, fun hc => (nomatch hc), fun _ below => ?_⟩
        · rw [hwrap]
          rfl
        · rw [hwrap]
          simp only [BlockMode.effect, List.append_assoc]
    | prepend =>
        refine ⟨?_, fun hc => (nomatch hc), fun _ below => ?_⟩
        · rw [hwrap]
          simp only [BlockMode.effect, List.append_nil]
        · rw [hwrap]
          simp only [BlockMode.effect, List.append_assoc]

/-- Whether the next definition combines as one of the same template or as one of a layout. -/
theorem Covers.step {definition : Definition α} {effect : List α → List α}
    (h : Covers definition effect) (id : BlockId) (block : Block BlockId α) (owner : Nat) :
    Covers (Registry.step id definition block owner)
      (if definition.owner = owner then fun below => block.effect (effect below)
        else fun below => effect (block.effect below)) := by
  unfold Registry.step
  by_cases ho : definition.owner = owner
  · rw [if_pos ho, if_pos ho]
    exact h.sequential id block owner
  · rw [if_neg ho, if_neg ho]
    exact h.inherited block owner

/-! ## Runs -/

/-- Further definitions of the same template act on top of each other. -/
theorem Covers.sameOwner {owner : Nat} (blocks : List (Block BlockId α)) :
    ∀ {definition last : Definition α} {effect : List α → List α}, Covers definition effect →
      definition.owner = owner →
      Evolves definition (blocks.map fun block => (block, owner)) last →
      Covers last (fun below => blocks.foldl (fun content block => block.effect content)
        (effect below)) ∧ last.owner = owner := by
  induction blocks with
  | nil =>
      intro definition last effect h ho hev
      cases hev
      exact ⟨h, ho⟩
  | cons block blocks ih =>
      intro definition last effect h ho hev
      cases hev with
      | further id hev =>
          -- the owner is the same, so the definition goes on top
          have hstep := h.step id block owner
          rw [if_pos ho] at hstep
          exact ih hstep (step_owner ..) hev

/-- The templates further up a chain act below what was there, and on top of it where they repeat
    the name. -/
theorem Covers.layouts (chain : Chain α) :
    ∀ {definition last : Definition α} {effect : List α → List α}, Covers definition effect →
      (definition.owner :: chain.map Contribution.owner).Nodup →
      Evolves definition chain.calls last → Covers last (chain.foldl Contribution.onto effect) := by
  induction chain with
  | nil =>
      intro definition last effect h _ hev
      cases hev
      exact h
  | cons contribution chain ih =>
      intro definition last effect h howners hev
      obtain ⟨hmem, htail⟩ := List.nodup_cons.mp howners
      obtain ⟨owner, blocks⟩ := contribution
      cases blocks with
      | nil =>
          -- a template that does not mention the name has no part in the run
          refine ih h (List.nodup_cons.mpr ⟨fun hc => hmem (List.mem_cons_of_mem _ hc), ?_⟩) hev
          exact (List.nodup_cons.mp htail).2
      | cons block blocks =>
          cases hev with
          | further id hev =>
              -- the first mention of a layout goes below, and its repeats on top
              have hother : definition.owner ≠ owner := fun hc => hmem (hc ▸ List.mem_cons_self)
              have hstep := h.step id block owner
              rw [if_neg hother] at hstep
              obtain ⟨middle, hfirst, hrest⟩ := hev.split
              obtain ⟨hcov, ho⟩ := hstep.sameOwner blocks (step_owner ..) hfirst
              exact ih hcov (ho ▸ htail) hrest

/-- **Every chain.**  What stands after a chain covers the effect of the chain. -/
theorem covers_of_chain {store : Store α} {registry : Registry α} {name : String}
    (hs : Settled store registry) (hnew : registry.get? name = none) (chain : Chain α) :
    (chain.map Contribution.owner).Nodup → FreshCalls store chain.calls → chain.calls ≠ [] →
      ∃ defined last, run store registry name chain.calls = some defined
        ∧ Standing name defined last ∧ Covers last chain.effect := by
  induction chain with
  | nil => intro _ _ hne; exact absurd rfl hne
  | cons contribution chain ih =>
      intro howners hf hne
      obtain ⟨owner, blocks⟩ := contribution
      cases blocks with
      | nil => exact ih (List.nodup_cons.mp howners).2 hf hne
      | cons block blocks =>
          obtain ⟨defined, last, hrun, hstand, hev⟩ := run_evolves hs hnew hf
          obtain ⟨middle, hfirst, hrest⟩ := hev.split
          obtain ⟨hcov, ho⟩ :=
            (covers_initial block owner).sameOwner blocks (initial_owner block owner) hfirst
          exact ⟨defined, last, hrun, hstand, hcov.layouts chain (ho ▸ howners) hrest⟩

/-- The block of a chain holds what the effect of the chain makes of nothing. -/
theorem nodes_of_run {store : Store α} {registry : Registry α} {name : String}
    (hs : Settled store registry) (hnew : registry.get? name = none) (chain : Chain α)
    (howners : (chain.map Contribution.owner).Nodup) (hf : FreshCalls store chain.calls)
    (hne : chain.calls ≠ []) :
    ∃ defined, run store registry name chain.calls = some defined
      ∧ defined.registry.block? name = some defined.block
      ∧ (defined.store.read defined.block).nodes = chain.effect [] := by
  obtain ⟨defined, last, hrun, hstand, hcov⟩ := covers_of_chain hs hnew chain howners hf hne
  obtain ⟨hblock, hread⟩ := hstand.holds
  exact ⟨defined, hrun, hblock, hread.trans hcov.content⟩

/-! ## Chains without repeats -/

theorem onto_id (contribution : Contribution α) : contribution.onto id = contribution.effect := by
  obtain ⟨owner, blocks⟩ := contribution
  cases blocks with
  | nil => rfl
  | cons block blocks => rfl

/-- A template that mentions the name at most once acts below the others. -/
theorem onto_of_single {contribution : Contribution α} (h : contribution.blocks.length ≤ 1)
    (effect : List α → List α) :
    contribution.onto effect = fun below => effect (contribution.effect below) := by
  obtain ⟨owner, blocks⟩ := contribution
  match blocks, h with
  | [], _ => rfl
  | [block], _ => rfl

theorem foldl_onto_of_single (chain : Chain α) :
    ∀ (effect : List α → List α),
      (∀ contribution ∈ chain, contribution.blocks.length ≤ 1) →
      chain.foldl Contribution.onto effect
        = fun below => effect (chain.foldr Contribution.effect below) := by
  induction chain with
  | nil => intro effect _; rfl
  | cons contribution chain ih =>
      intro effect honce
      rw [List.foldl_cons, onto_of_single (honce contribution List.mem_cons_self),
        ih _ fun other hmem => honce other (List.mem_cons_of_mem _ hmem)]
      rfl

/-- The effect of a chain in which only the first template repeats the name is the composition of
    the effects. -/
theorem effect_of_single (chain : Chain α)
    (honce : ∀ contribution ∈ chain.tail, contribution.blocks.length ≤ 1) :
    chain.effect [] = chain.content := by
  cases chain with
  | nil => rfl
  | cons contribution chain =>
      show (chain.foldl Contribution.onto (contribution.onto id)) [] = _
      rw [onto_id, foldl_onto_of_single chain _ honce]
      rfl

/-- **Inheritance.**  In a chain in which every template but the most derived one mentions a name
    at most once, registering the definitions of the name, most derived template first, leaves the
    registered block, which the last definition hands back, with the composition of the effects
    applied to nothing. -/
theorem nodes_of_chain {store : Store α} {registry : Registry α} {name : String}
    (hs : Settled store registry) (hnew : registry.get? name = none) (chain : Chain α)
    (howners : (chain.map Contribution.owner).Nodup)
    (honce : ∀ contribution ∈ chain.tail, contribution.blocks.length ≤ 1)
    (hf : FreshCalls store chain.calls) (hne : chain.calls ≠ []) :
    ∃ defined, run store registry name chain.calls = some defined
      ∧ defined.registry.block? name = some defined.block
      ∧ (defined.store.read defined.block).nodes = chain.content := by
  obtain ⟨defined, hrun, hblock, hnodes⟩ := nodes_of_run hs hnew chain howners hf hne
  exact ⟨defined, hrun, hblock, hnodes.trans (effect_of_single chain honce)⟩

/-- A chain of three templates: the first appends and then prepends, the second appends, and the
    layout gives the content. -/
def threeLevels : Chain Nat :=
  [⟨1, [⟨0, 1, { mode := .append }, [10]⟩, ⟨1, 2, { mode := .prepend }, [11]⟩]⟩,
   ⟨2, [⟨2, 1, { mode := .append }, [20]⟩]⟩,
   ⟨3, [⟨3, 1, {}, [30]⟩]⟩]

/-- `nodes_of_chain` at a chain of three templates. -/
theorem nodes_of_threeLevels :
    (threeLevels.map Contribution.owner).Nodup
      ∧ (∀ contribution ∈ threeLevels.tail, contribution.blocks.length ≤ 1)
      ∧ threeLevels.content = [11, 30, 20, 10]
      ∧ ∃ defined, run { next := 4 } .empty "content" threeLevels.calls = some defined
        ∧ (Registry.block? defined.registry "content") = some defined.block
        ∧ (defined.store.read defined.block).nodes = threeLevels.content := by
  have howners : (threeLevels.map Contribution.owner).Nodup := by decide
  have honce : ∀ contribution ∈ threeLevels.tail, contribution.blocks.length ≤ 1 := by decide
  have hf : FreshCalls { next := 4 } threeLevels.calls :=
    freshCalls_of_given (by decide) (by decide)
  exact ⟨howners, honce, by decide,
    nodes_of_chain (settled_empty 4) rfl threeLevels howners honce hf (by decide)⟩

end Registry

end Stencil
