import Mathlib.Data.List.Dedup
import Stencil.Proofs.Registry.Chain

/-! # Conservation — a definition moves nodes and never copies them

    In a run of definitions under any names, every node is in one block.  What a
    call hands in and what the name held before are, taken together, what the name
    holds afterwards and what the call drops (`step_perm`); every other block that
    was handed in or handed back is empty.

    `Arises` are the histories of such runs, `Sound` is what one definition
    preserves, and `define_moves` is what comes of it at every call. -/

namespace Stencil

namespace Registry

variable {α κ : Type}

/-! ## Runs under any names -/

/-- A block that a template defines under a name. -/
structure Naming (α : Type) where
  name : String
  block : Block BlockId α
  owner : Nat

/-- A registry and its store in the middle of a run of definitions. -/
structure History (α : Type) where
  store : Store α
  registry : Registry α := .empty
  /-- The blocks that were handed in or handed back so far. -/
  met : List BlockId := []

namespace History

variable (history : History α)

/-- What a block holds now. -/
def contents (id : BlockId) : List α :=
  ((history.store.current.get? id).map Block.nodes).getD []

/-- The nodes of all blocks met so far, those of every block once. -/
def held : List α := history.met.dedup.flatMap history.contents

/-- The outcome of one more definition. -/
def outcome (naming : Naming α) : Defined α :=
  history.registry.define history.store naming.name naming.block naming.owner

/-- The history with one more definition. -/
def define (naming : Naming α) : History α where
  store := (history.outcome naming).store
  registry := (history.outcome naming).registry
  met := history.met ++ [naming.block.id, (history.outcome naming).block.id]

/-- The history after an identity has been given away. -/
def taken : History α := { history with store := history.store.taken }

/-- A new block, whose nodes are distinct and in no block met so far. -/
structure Admits (identity : α → κ) (block : Block BlockId α) : Prop where
  fresh : history.store.Fresh block
  distinct : (block.nodes.map identity).Nodup
  apart : ∀ node ∈ block.nodes, ∀ other ∈ history.held, identity node ≠ identity other

/-- What a definition drops: the old content, if its own owner replaces it, and the new one, if
    another owner had replaced already. -/
def dropped (naming : Naming α) : List α :=
  match history.registry.get? naming.name with
  | none => []
  | some previous =>
      if previous.owner = naming.owner then
        if naming.block.props.mode = .replace then history.contents previous.block.id else []
      else if previous.mode = .replace then naming.block.nodes else []

/-- The block of an identity is that of a name. -/
def Registered (id : BlockId) : Prop :=
  ∃ name definition, history.registry.get? name = some definition ∧ definition.block.id = id

end History

/-- The histories of runs of definitions by new blocks; nodes are told apart by `identity`. -/
inductive Arises (identity : α → κ) : History α → Prop where
  | start (next : BlockId) : Arises identity { store := { next } }
  | take {history : History α} : Arises identity history → Arises identity history.taken
  | define {history : History α} (naming : Naming α) : Arises identity history →
      history.Admits identity naming.block → Arises identity (history.define naming)

/-! ## One definition -/

/-- A definition that wraps the content of a layout holds what goes before it and what goes after
    it. -/
def Whole (definition : Definition α) : Prop :=
  definition.mode ≠ .replace → definition.block.nodes = definition.head ++ definition.tail

theorem whole_initial (block : Block BlockId α) (owner : Nat) : Whole (initial block owner) := by
  unfold initial
  cases block.props.mode with
  | replace => exact fun hmode => absurd rfl hmode
  | append => exact fun _ => rfl
  | prepend => exact fun _ => (List.append_nil _).symm

theorem whole_sequential {previous : Definition α} (h : Whole previous) (id : BlockId)
    (block : Block BlockId α) (owner : Nat) :
    Whole (sequential id previous previous.block.nodes block owner) := by
  unfold sequential
  cases block.props.mode with
  | replace => exact fun hmode => absurd rfl hmode
  | append =>
      intro hmode
      have hwraps : (previous.mode != .replace) = true := bne_iff_ne.mpr hmode
      simp only [merged, hwraps, if_true, h hmode, List.append_assoc]
  | prepend =>
      intro hmode
      have hwraps : (previous.mode != .replace) = true := bne_iff_ne.mpr hmode
      simp only [merged, hwraps, if_true, h hmode, List.append_assoc]

theorem whole_inherited (previous : Definition α) (kept block : Block BlockId α) (owner : Nat) :
    Whole (inherited previous kept block owner) := by
  unfold inherited
  cases hmode : previous.mode with
  | replace => exact fun hne => absurd rfl hne
  | append =>
      cases block.props.mode with
      | replace => exact fun hne => absurd rfl hne
      | append => exact fun _ => List.append_assoc ..
      | prepend => exact fun _ => rfl
  | prepend =>
      cases block.props.mode with
      | replace => exact fun hne => absurd rfl hne
      | append => exact fun _ => List.append_assoc ..
      | prepend => exact fun _ => rfl

theorem whole_step {previous : Definition α} (h : Whole previous) (id : BlockId)
    (block : Block BlockId α) (owner : Nat) : Whole (step id previous block owner) := by
  unfold step
  split
  · exact whole_sequential h id block owner
  · exact whole_inherited previous previous.block block owner

/-- What one owner makes of two definitions: the nodes of both, unless the later one replaces. -/
theorem sequential_perm (id : BlockId) (previous : Definition α) (existing : List α)
    (block : Block BlockId α) (owner : Nat) :
    (existing ++ block.nodes).Perm ((sequential id previous existing block owner).block.nodes
      ++ if block.props.mode = .replace then existing else []) := by
  unfold sequential
  cases block.props.mode with
  | replace => exact List.perm_append_comm
  | append => exact List.Perm.of_eq (List.append_nil _).symm
  | prepend => exact List.perm_append_comm.trans (.of_eq (List.append_nil _).symm)

/-- What a definition and that of a layout make: the nodes of both, unless the first replaces. -/
theorem inherited_perm {previous : Definition α} (h : Whole previous) (block : Block BlockId α)
    (owner : Nat) :
    (previous.block.nodes ++ block.nodes).Perm
      ((inherited previous previous.block block owner).block.nodes
        ++ if previous.mode = .replace then block.nodes else []) := by
  have hwrapped : previous.mode ≠ .replace → (previous.block.nodes ++ block.nodes).Perm
      (previous.head ++ block.nodes ++ previous.tail ++ []) := by
    intro hmode
    rw [h hmode, List.append_nil, List.append_assoc, List.append_assoc]
    exact List.perm_append_comm.append_left _
  unfold inherited
  cases hmode : previous.mode with
  | replace => exact .refl _
  | append =>
      have hperm := hwrapped (by simp [hmode])
      cases block.props.mode <;> exact hperm
  | prepend =>
      have hperm := hwrapped (by simp [hmode])
      cases block.props.mode <;> exact hperm

/-- **The step moves nodes**: those of the name and those handed in are the ones that the name has
    afterwards, and those that are dropped. -/
theorem step_perm {previous : Definition α} (h : Whole previous) (id : BlockId)
    (block : Block BlockId α) (owner : Nat) :
    (previous.block.nodes ++ block.nodes).Perm ((step id previous block owner).block.nodes
      ++ if previous.owner = owner then
          if block.props.mode = .replace then previous.block.nodes else []
        else if previous.mode = .replace then block.nodes else []) := by
  unfold step
  by_cases howner : previous.owner = owner
  · rw [if_pos howner, if_pos howner]
    exact sequential_perm id previous previous.block.nodes block owner
  · rw [if_neg howner, if_neg howner]
    exact inherited_perm h block owner

/-! ## Nodes in lists of blocks -/

/-- Two lists of different blocks have the same nodes if they have the same blocks with nodes. -/
theorem flatMap_perm {ids others : List BlockId} {contents : BlockId → List α} (h : ids.Nodup)
    (hothers : others.Nodup) (hsame : ∀ id, contents id ≠ [] → (id ∈ ids ↔ id ∈ others)) :
    (ids.flatMap contents).Perm (others.flatMap contents) := by
  have hfilled : ∀ list : List BlockId, list.flatMap contents
      = (list.filter fun id => !(contents id).isEmpty).flatMap contents := by
    intro list
    induction list with
    | nil => rfl
    | cons id list ih =>
        rw [List.flatMap_cons, List.filter_cons]
        cases hid : contents id with
        | nil => simpa [hid] using ih
        | cons node nodes => simp [hid, ih]
  rw [hfilled ids, hfilled others]
  refine List.Perm.flatMap_right contents ?_
  refine (List.perm_ext_iff_of_nodup (h.filter _) (hothers.filter _)).mpr fun id => ?_
  rw [List.mem_filter, List.mem_filter]
  refine and_congr_left fun hid => hsame id fun hnil => ?_
  rw [hnil] at hid
  exact nomatch hid

/-! ## What a run preserves -/

/-- What holds of a run of definitions: the blocks met are those the store records, a block without
    a name is empty, and no node is held twice. -/
structure Sound (identity : α → κ) (history : History α) : Prop where
  settled : Settled history.store history.registry
  recorded : ∀ id, id ∈ history.met ↔ (history.store.current.get? id).isSome
  bare : ∀ id ∈ history.met, ¬ history.Registered id → history.contents id = []
  whole : ∀ name definition, history.registry.get? name = some definition → Whole definition
  distinct : (history.held.map identity).Nodup

section Sound

variable {identity : α → κ} {history : History α} {naming : Naming α}

theorem Sound.contents_eq (h : Sound identity history) {name : String} {definition : Definition α}
    (hname : history.registry.get? name = some definition) :
    history.contents definition.block.id = definition.block.nodes := by
  rw [History.contents, h.settled.recorded hname]
  rfl

theorem Sound.met_of_name (h : Sound identity history) {name : String}
    {definition : Definition α} (hname : history.registry.get? name = some definition) :
    definition.block.id ∈ history.met := by
  rw [h.recorded, h.settled.recorded hname]
  rfl

/-- A new block was not met. -/
theorem Sound.not_met (h : Sound identity history) {block : Block BlockId α}
    (hfresh : history.store.Fresh block) : block.id ∉ history.met := by
  rw [h.recorded, hfresh.unrecorded]
  exact Bool.false_ne_true

theorem Sound.lt_next (h : Sound identity history) {id : BlockId} (hid : id ∈ history.met) :
    id < history.store.next := by
  obtain ⟨block, hblock⟩ := Option.isSome_iff_exists.mp ((h.recorded id).mp hid)
  exact (h.settled.bounded hblock).1

/-- The definition that a name has afterwards. -/
def History.made (history : History α) (naming : Naming α) : Definition α :=
  definitionAfter history.store history.registry naming.name naming.block naming.owner

theorem Sound.registry_define (h : Sound identity history)
    (hfresh : history.store.Fresh naming.block) :
    (history.define naming).registry
      = history.registry.insert naming.name (history.made naming) :=
  define_registry h.settled hfresh naming.name naming.owner

theorem Sound.met_define (h : Sound identity history)
    (hfresh : history.store.Fresh naming.block) (id : BlockId) :
    id ∈ (history.define naming).met
      ↔ id ∈ history.met ∨ id = naming.block.id ∨ id = (history.made naming).block.id := by
  have hblock : (history.outcome naming).block = (history.made naming).block :=
    define_block h.settled hfresh naming.name naming.owner
  simp [History.define, hblock]

/-- What blocks hold after a definition. -/
theorem Sound.contents_define (h : Sound identity history)
    (hfresh : history.store.Fresh naming.block) (id : BlockId) :
    (history.define naming).contents id
      = if id = (history.made naming).block.id then (history.made naming).block.nodes
        else if id = naming.block.id then []
        else match history.registry.get? naming.name with
          | some previous => if id = previous.block.id then [] else history.contents id
          | none => history.contents id := by
  have hcurrent := current_define h.settled hfresh naming.name naming.owner id
  unfold History.contents
  rw [show (history.define naming).store.current.get? id = _ from hcurrent]
  show Option.getD (Option.map Block.nodes (if id = (history.made naming).block.id then _
    else _)) [] = _
  split
  · rfl
  · split
    · rfl
    · cases history.registry.get? naming.name with
      | none => rfl
      | some previous =>
          dsimp only
          split <;> rfl

/-- **What was held and what is handed in** is what is held afterwards, and what is dropped. -/
theorem Sound.held_define (h : Sound identity history)
    (hfresh : history.store.Fresh naming.block) :
    (history.held ++ naming.block.nodes).Perm
      ((history.define naming).held ++ history.dropped naming) := by
  have hnew := h.not_met hfresh
  have hmet := List.nodup_dedup history.met
  have hcontents := h.contents_define hfresh
  have hdefined := h.met_define hfresh
  cases hname : history.registry.get? naming.name with
  | none =>
      -- the block that is handed in holds its nodes afterwards, and the others keep theirs
      have hmade : history.made naming = initial naming.block naming.owner := by
        rw [History.made, definitionAfter, hname]
      rw [hmade, initial_block] at hcontents hdefined
      have hheld : (history.define naming).held.Perm
          ((naming.block.id :: history.met.dedup).flatMap (history.define naming).contents) := by
        refine flatMap_perm (List.nodup_dedup _)
          (List.nodup_cons.mpr ⟨fun hmem => hnew (List.mem_dedup.mp hmem), hmet⟩) fun id _ => ?_
        rw [List.mem_dedup, hdefined, List.mem_cons, List.mem_dedup]
        tauto
      have hothers : history.met.dedup.flatMap (history.define naming).contents = history.held := by
        refine List.flatMap_congr fun id hid => ?_
        have hne : id ≠ naming.block.id := by
          rintro rfl
          exact hnew (List.mem_dedup.mp hid)
        rw [hcontents, if_neg hne, if_neg hne, hname]
      rw [List.flatMap_cons, hothers, hcontents, if_pos rfl] at hheld
      rw [History.dropped, hname, List.append_nil]
      exact List.perm_append_comm.trans hheld.symm
  | some previous =>
      have hmade : history.made naming
          = step history.store.next previous naming.block naming.owner := by
        rw [History.made, definitionAfter, hname]
      have hprevious := h.met_of_name hname
      obtain ⟨others, hsplit, hothers⟩ : ∃ others, history.met.dedup.Perm
          (previous.block.id :: others) ∧ ∀ id ∈ others, id ∈ history.met :=
        ⟨_, List.perm_cons_erase (List.mem_dedup.mpr hprevious),
          fun id hid => List.mem_dedup.mp (List.mem_of_mem_erase hid)⟩
      obtain ⟨hout, hothersNodup⟩ := List.nodup_cons.mp (hsplit.nodup_iff.mp hmet)
      -- the block of the result is that of the name, or one that no call has seen
      have hid : (history.made naming).block.id ∉ others := by
        rw [hmade, step_id]
        split
        · exact fun hmem => Nat.lt_irrefl _ (h.lt_next (hothers _ hmem))
        · exact hout
      have hheld : (history.define naming).held.Perm
          (((history.made naming).block.id :: others).flatMap
            (history.define naming).contents) := by
        refine flatMap_perm (List.nodup_dedup _) (List.nodup_cons.mpr ⟨hid, hothersNodup⟩)
          fun id hfilled => ?_
        have hmem : id ∈ history.met ↔ id = previous.block.id ∨ id ∈ others := by
          rw [← List.mem_dedup, hsplit.mem_iff, List.mem_cons]
        rw [List.mem_dedup, hdefined, List.mem_cons, hmem]
        rw [hcontents, hname] at hfilled
        -- the block that was handed in and that of the name hold nothing, unless one is the result
        split at hfilled
        · next hresult => simp [hresult]
        · next hresult =>
            split at hfilled
            · exact absurd rfl hfilled
            · next hblock =>
                dsimp only at hfilled
                split at hfilled
                · exact absurd rfl hfilled
                · next hother => simp [hresult, hblock, hother]
      have hkept : others.flatMap (history.define naming).contents
          = others.flatMap history.contents := by
        refine List.flatMap_congr fun id hmem => ?_
        have hresult : id ≠ (history.made naming).block.id := fun heq => hid (heq ▸ hmem)
        have hblock : id ≠ naming.block.id := fun heq => hnew (heq ▸ hothers id hmem)
        have hother : id ≠ previous.block.id := fun heq => hout (heq ▸ hmem)
        rw [hcontents, if_neg hresult, if_neg hblock, hname]
        exact if_neg hother
      have hbefore : history.held.Perm
          (previous.block.nodes ++ others.flatMap history.contents) := by
        have hperm := hsplit.flatMap_right history.contents
        rwa [List.flatMap_cons, h.contents_eq hname] at hperm
      rw [List.flatMap_cons, hkept, hcontents, if_pos rfl, hmade] at hheld
      have hstep := step_perm (h.whole _ _ hname) history.store.next naming.block naming.owner
      rw [History.dropped, hname]
      simp only [h.contents_eq hname]
      have hswap : ∀ first second third : List α,
          (first ++ second ++ third).Perm (first ++ third ++ second) := by
        intro first second third
        rw [List.append_assoc, List.append_assoc]
        exact List.perm_append_comm.append_left first
      calc history.held ++ naming.block.nodes
        List.Perm _ (previous.block.nodes ++ others.flatMap history.contents
            ++ naming.block.nodes) := hbefore.append_right _
        List.Perm _ (previous.block.nodes ++ naming.block.nodes
            ++ others.flatMap history.contents) := hswap ..
        List.Perm _ _ := hstep.append_right _
        List.Perm _ _ := hswap ..
        List.Perm _ _ := hheld.symm.append_right _

/-- **One definition preserves it.** -/
theorem Sound.define (h : Sound identity history)
    (hadmits : history.Admits identity naming.block) : Sound identity (history.define naming) where
  settled := define_settled h.settled hadmits.fresh naming.name naming.owner
  recorded := by
    intro id
    have hcurrent := current_define h.settled hadmits.fresh naming.name naming.owner id
    rw [h.met_define hadmits.fresh, h.recorded,
      show (history.define naming).store.current.get? id = _ from hcurrent]
    change _ ↔ Option.isSome (if id = (history.made naming).block.id then _ else _) = true
    split
    · next hid => simp [hid]
    · next hid =>
        split
        · next hblock => simp [hblock]
        · next hblock =>
            simp only [hid, hblock, or_false]
            cases hname : history.registry.get? naming.name with
            | none => rfl
            | some previous =>
                dsimp only
                split
                · next hprevious =>
                    rw [hprevious, h.settled.recorded hname]
                    simp
                · rfl
  bare := by
    intro id hmet hbare
    have hmade : id ≠ (history.made naming).block.id := by
      rintro rfl
      refine hbare ⟨naming.name, _, ?_, rfl⟩
      rw [h.registry_define hadmits.fresh, OrderedMap.get?_insert_self]
    rw [h.met_define hadmits.fresh] at hmet
    rw [h.contents_define hadmits.fresh, if_neg hmade]
    split
    · rfl
    · next hblock =>
        have hmet : id ∈ history.met := by tauto
        -- a block that no name has now had no other name before
        have hbefore : ∀ {name definition}, history.registry.get? name = some definition →
            definition.block.id = id → name = naming.name := by
          intro name definition hname hid
          by_contra hne
          refine hbare ⟨name, definition, ?_, hid⟩
          rw [h.registry_define hadmits.fresh, OrderedMap.get?_insert, if_neg hne, hname]
        cases hname : history.registry.get? naming.name with
        | none =>
            refine h.bare id hmet ?_
            rintro ⟨name, definition, hother, hid⟩
            rw [hbefore hother hid, hname] at hother
            cases hother
        | some previous =>
            dsimp only
            split
            · rfl
            · next hprevious =>
                refine h.bare id hmet ?_
                rintro ⟨name, definition, hother, hid⟩
                rw [hbefore hother hid, hname] at hother
                exact hprevious (Option.some.inj hother ▸ hid).symm
  whole := by
    intro name definition hname
    rw [h.registry_define hadmits.fresh, OrderedMap.get?_insert] at hname
    split at hname
    · obtain rfl := Option.some.inj hname
      unfold History.made definitionAfter
      split
      · exact whole_initial naming.block naming.owner
      · next previous hprevious => exact whole_step (h.whole _ _ hprevious) _ _ _
    · exact h.whole name definition hname
  distinct := by
    have hperm := (h.held_define hadmits.fresh).map identity
    have hall : ((history.held ++ naming.block.nodes).map identity).Nodup := by
      rw [List.map_append]
      refine List.nodup_append.mpr ⟨h.distinct, hadmits.distinct, ?_⟩
      intro first hfirst second hsecond
      obtain ⟨other, hother, rfl⟩ := List.mem_map.mp hfirst
      obtain ⟨node, hnode, rfl⟩ := List.mem_map.mp hsecond
      exact (hadmits.apart node hnode other hother).symm
    rw [hperm.nodup_iff, List.map_append] at hall
    exact (List.nodup_append.mp hall).1

theorem Sound.taken (h : Sound identity history) : Sound identity history.taken where
  settled :=
    { recorded := h.settled.recorded
      separate := h.settled.separate
      bounded := fun hblock =>
        ⟨Nat.lt_succ_of_lt (h.settled.bounded hblock).1, (h.settled.bounded hblock).2⟩ }
  recorded := h.recorded
  bare := h.bare
  whole := h.whole
  distinct := h.distinct

theorem sound_start (identity : α → κ) (next : BlockId) :
    Sound identity ({ store := { next } } : History α) where
  settled := settled_empty next
  recorded := fun _ => ⟨nofun, nofun⟩
  bare := nofun
  whole := nofun
  distinct := List.nodup_nil

/-- **A whole run preserves it.** -/
theorem Arises.sound (h : Arises identity history) : Sound identity history := by
  induction h with
  | start next => exact sound_start identity next
  | take _ ih => exact ih.taken
  | define naming _ hadmits ih => exact ih.define hadmits

end Sound

/-! ## What comes of a call -/

/-- What one call of a run does, and what holds after it. -/
structure Moves (identity : α → κ) (history : History α) (naming : Naming α) : Prop where
  /-- The block that is handed back is the one of the name. -/
  registered : (history.define naming).registry.block? naming.name
    = some (history.outcome naming).block
  /-- No node is twice in the blocks met so far. -/
  distinct : ((history.define naming).held.map identity).Nodup
  /-- A block that no name has is empty. -/
  bare : ∀ id ∈ (history.define naming).met, ¬ (history.define naming).Registered id →
    (history.define naming).contents id = []
  /-- A definition that does not replace holds its head and its tail. -/
  whole : ∀ name definition, (history.define naming).registry.get? name = some definition →
    definition.mode ≠ .replace → (history.define naming).contents definition.block.id
      = definition.head ++ definition.tail
  /-- What was held before and what was handed in is held now, or was dropped. -/
  moved : (history.held ++ naming.block.nodes).Perm
    ((history.define naming).held ++ history.dropped naming)

/-- **A definition moves nodes and never copies them**, at every call of every run. -/
theorem define_moves (identity : α → κ) {history : History α} {naming : Naming α}
    (h : Arises identity history) (hadmits : history.Admits identity naming.block) :
    Moves identity history naming := by
  have hsound := h.sound
  have hafter := hsound.define hadmits
  constructor
  case registered =>
    rw [Registry.block?, hsound.registry_define hadmits.fresh, OrderedMap.get?_insert_self]
    exact congrArg some
      (define_block hsound.settled hadmits.fresh naming.name naming.owner).symm
  case distinct => exact hafter.distinct
  case bare => exact hafter.bare
  case whole =>
    intro name definition hname hmode
    rw [hafter.contents_eq hname]
    exact hafter.whole name definition hname hmode
  case moved => exact hsound.held_define hadmits.fresh

/-- A page that says three things about two names. -/
def pageHistory : History Nat :=
  ((({ store := { next := 4 } } : History Nat).define
      ⟨"content", { id := 0, props := { mode := .append }, nodes := [10, 11] }, 1⟩).define
      ⟨"content", { id := 1, props := { mode := .prepend }, nodes := [20] }, 1⟩).define
      ⟨"side", { id := 2, nodes := [30] }, 1⟩

/-- What the layout of the page says about the first name. -/
def layoutNaming : Naming Nat where
  name := "content"
  block := { id := 3, nodes := [40, 41] }
  owner := 2

theorem define_moves_wrapped :
    Arises id pageHistory ∧ pageHistory.Admits id layoutNaming.block
      ∧ Moves id pageHistory layoutNaming
      ∧ (pageHistory.define layoutNaming).held.Perm [30, 20, 40, 41, 10, 11] := by
  have hpage : Arises id pageHistory := by
    refine (((Arises.start 4).define _ ?_).define _ ?_).define _ ?_
    all_goals exact ⟨⟨by decide, by decide⟩, by decide, by decide⟩
  have hlayout : pageHistory.Admits id layoutNaming.block :=
    ⟨⟨by decide, by decide⟩, by decide, by decide⟩
  exact ⟨hpage, hlayout, define_moves id hpage hlayout, by decide⟩

end Registry

end Stencil
