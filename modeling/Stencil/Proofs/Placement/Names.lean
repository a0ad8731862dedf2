import Mathlib.Logic.Function.Basic
import Stencil.Proofs.Placement.Drawn
import Stencil.Proofs.Registry.Inheritance

/-! # Names and mentions — the registry follows the ledger

    What the registry has under a name can be told from the mentions of the
    name: whose mention came last, whether one of them replaces what layouts
    say, and which of them have their content in the name's block.  `Names` puts
    this down for all names at once, together with which mentions were given one
    block.  Defining a name with a fresh block keeps it (`Names.define`). -/

namespace Stencil

namespace Registry

variable {α : Type} {previous : Definition α} {block : Block BlockId α} {owner : Nat}

/-- A definition that does not replace what layouts say holds its head and its tail. -/
def Wraps (definition : Definition α) : Prop :=
  definition.mode ≠ .replace → definition.block.nodes = definition.head ++ definition.tail

theorem initial_mode (block : Block BlockId α) (owner : Nat) :
    (initial block owner).mode = block.props.mode := by
  unfold initial
  cases block.props.mode <;> rfl

theorem wraps_initial (block : Block BlockId α) (owner : Nat) : Wraps (initial block owner) := by
  unfold Wraps initial
  cases block.props.mode <;> simp

/-- Once a definition replaces what layouts say, it does so for good. -/
theorem step_mode (id : BlockId) (previous : Definition α) (block : Block BlockId α)
    (owner : Nat) :
    (step id previous block owner).mode = .replace
      ↔ previous.mode = .replace ∨ block.props.mode = .replace := by
  unfold step
  split
  · unfold sequential
    cases block.props.mode <;> simp
  · by_cases hmode : previous.mode = .replace
    · simp [inherited_of_replace hmode, hmode]
    · simp [inherited_of_wraps hmode, hmode]

theorem Wraps.step (h : Wraps previous) (id : BlockId) (block : Block BlockId α) (owner : Nat) :
    Wraps (step id previous block owner) := by
  unfold Wraps Registry.step
  split
  · unfold sequential
    cases block.props.mode
    case replace => simp
    all_goals
      intro hmode
      have hbne : (previous.mode != .replace) = true := bne_iff_ne.mpr hmode
      simp [h hmode, hbne, merged]
  · by_cases hmode : previous.mode = .replace
    · simp [inherited_of_replace hmode]
    · rw [inherited_of_wraps hmode]
      cases block.props.mode <;> simp

/-- A repeat that replaces drops what was there. -/
theorem step_nodes_of_replaces (ho : previous.owner = owner) (hmode : block.props.mode = .replace)
    (id : BlockId) : (step id previous block owner).block.nodes = block.nodes := by
  simp [step, ho, sequential, hmode, merged]

/-- A repeat that does not replace adds to what was there. -/
theorem step_nodes_of_repeat (ho : previous.owner = owner) (hmode : block.props.mode ≠ .replace)
    (id : BlockId) :
    (step id previous block owner).block.nodes.Perm (previous.block.nodes ++ block.nodes) := by
  unfold step sequential
  rw [if_pos ho]
  cases hm : block.props.mode with
  | replace => exact absurd hm hmode
  | append => exact .refl _
  | prepend => exact List.perm_append_comm

/-- A layout adds nothing to a definition that replaces what it says. -/
theorem step_nodes_of_kept (ho : previous.owner ≠ owner) (hmode : previous.mode = .replace)
    (id : BlockId) : (step id previous block owner).block.nodes = previous.block.nodes := by
  simp [step, ho, inherited_of_replace hmode]

/-- A layout adds to a definition that goes around what it says. -/
theorem step_nodes_of_wraps (ho : previous.owner ≠ owner) (hmode : previous.mode ≠ .replace)
    (h : Wraps previous) (id : BlockId) :
    (step id previous block owner).block.nodes.Perm (previous.block.nodes ++ block.nodes) := by
  rw [step, if_neg ho, inherited_of_wraps hmode, h hmode]
  simp only [List.append_assoc]
  exact List.Perm.append_left _ List.perm_append_comm

end Registry

namespace Placement

/-! ## Kept mentions -/

namespace Ledger

variable {ledger : Ledger} {mention : Mention} {name : String} {i : Nat}

open Classical in
/-- The mentions of a name whose content is kept to the end. -/
noncomputable def kept (ledger : Ledger) (name : String) : List Nat :=
  (List.range ledger.length).filter fun i => ledger[i]!.name = name ∧ ledger.Survives i

theorem mem_kept :
    i ∈ ledger.kept name ↔ i < ledger.length ∧ ledger[i]!.name = name ∧ ledger.Survives i := by
  simp [kept]

open Classical in
/-- A further mention is judged like those before it. -/
theorem kept_append_eq :
    (ledger ++ [mention] : Ledger).kept name
      = (List.range ledger.length).filter (fun i => ledger[i]!.name = name
          ∧ (ledger ++ [mention] : Ledger).Survives i)
        ++ if mention.name = name ∧ (ledger ++ [mention] : Ledger).Survives ledger.length
          then [ledger.length] else [] := by
  simp only [kept, List.length_append, List.length_singleton, List.range_succ, List.filter_append]
  congr 1
  · refine List.filter_congr fun i hi => ?_
    rw [get_append_left (List.mem_range.mp hi)]
  · rw [List.filter_cons, List.filter_nil, get_append_self]
    simp only [decide_eq_true_eq]

/-- A mention of another name keeps everything. -/
theorem kept_append_other (h : mention.name ≠ name) :
    (ledger ++ [mention] : Ledger).kept name = ledger.kept name := by
  rw [kept_append_eq, if_neg fun hc => h hc.1, List.append_nil]
  refine List.filter_congr fun i hi => decide_eq_decide.mpr (and_congr_right fun hname => ?_)
  rw [survives_append (List.mem_range.mp hi)]
  exact and_iff_left fun hsame => absurd (hsame.trans hname) h

/-- A repeat that replaces is the only mention that is kept. -/
theorem kept_append_of_replaces
    (hrepeats : (ledger ++ [mention] : Ledger).Repeats ledger.length)
    (hmode : mention.mode = .replace) :
    (ledger ++ [mention] : Ledger).kept mention.name = [ledger.length] := by
  rw [kept_append_eq, if_pos ⟨rfl, survives_append_self.mpr (Or.inl hrepeats)⟩]
  refine List.append_left_eq_self.mpr (List.filter_eq_nil_iff.mpr fun i hi => ?_)
  simp only [decide_eq_true_eq, survives_append (List.mem_range.mp hi)]
  rintro ⟨hname, -, hkept⟩
  exact hkept hname.symm hrepeats hmode

open Classical in
/-- A further mention is added to those that are kept, if its own content is. -/
theorem kept_append
    (h : (ledger ++ [mention] : Ledger).Repeats ledger.length → mention.mode ≠ .replace) :
    (ledger ++ [mention] : Ledger).kept mention.name
      = ledger.kept mention.name
        ++ if (ledger ++ [mention] : Ledger).Survives ledger.length
          then [ledger.length] else [] := by
  rw [kept_append_eq]
  simp only [true_and]
  refine congrArg (· ++ _) (List.filter_congr fun i hi => decide_eq_decide.mpr ?_)
  rw [survives_append (List.mem_range.mp hi)]
  exact and_congr_right fun _ => and_iff_left fun _ => h

end Ledger

/-! ## Names -/

/-- What stands for a mention. -/
structure Slot where
  /-- The block that the mention was given. -/
  block : BlockId
  /-- The content of the mention. -/
  nodes : List Draft
  /-- The nodes of its own that the content shows. -/
  plain : List BlockId

/-- The definition of a name follows from the mentions of the name. -/
structure Current (ledger : Ledger) (slots : Nat → Slot) (name : String)
    (definition : Definition Draft) : Prop where
  /-- The last mention was given the block. -/
  last : ∃ i < ledger.length, ledger[i]!.name = name
    ∧ (∀ j < ledger.length, ledger[j]!.name = name → j ≤ i)
    ∧ ledger[i]!.owner = definition.owner ∧ (slots i).block = definition.block.id
  mode : definition.mode = .replace
    ↔ ∃ i < ledger.length, ledger[i]!.name = name ∧ ledger[i]!.mode = .replace
  wraps : Registry.Wraps definition
  /-- The block holds the mentions that are kept. -/
  nodes : definition.block.nodes.Perm ((ledger.kept name).flatMap fun i => (slots i).nodes)

/-- The registry and the store follow from the mentions. -/
structure Names (book : Book) (slots : Nat → Slot) : Prop where
  /-- A template's mentions come after those of the templates it was reached from. -/
  owners : ∀ i j, i ≤ j → j < book.ledger.length →
    book.ledger[i]!.owner ≤ book.ledger[j]!.owner
  unmentioned : ∀ {name}, book.registry.get? name = none →
    ∀ i < book.ledger.length, book.ledger[i]!.name ≠ name
  current : ∀ {name definition}, book.registry.get? name = some definition →
    Current book.ledger slots name definition
  /-- A block that a mention was given is the one of its name, or empty. -/
  recorded : ∀ i < book.ledger.length,
    ∃ state, book.store.current.get? (slots i).block = some state
      ∧ (state.nodes = [] ∨ ∃ definition, book.registry.get? book.ledger[i]!.name = some definition
          ∧ definition.block.id = (slots i).block)
  /-- Which mentions were given one block. -/
  same : ∀ i j, i < book.ledger.length → j < book.ledger.length →
    ((slots i).block = (slots j).block ↔ book.ledger.SameBlock i j)

section Define

variable {book : Book} {slots : Nat → Slot} {name : String} {block : Block BlockId Draft}
  {owner : Nat} {inside : List Nat}

/-- A mention that is added by a definition. -/
def newMention (owner : Nat) (name : String) (block : Block BlockId Draft) (inside : List Nat) :
    Mention :=
  { owner, name, mode := block.props.mode, inside }

/-- A further mention is a repeat exactly when the name's definition has its owner. -/
theorem Names.repeats_iff (h : Names book slots)
    (howner : ∀ i < book.ledger.length, book.ledger[i]!.owner ≤ owner)
    {definition : Definition Draft} (hname : book.registry.get? name = some definition) :
    (book.ledger ++ [newMention owner name block inside] : Ledger).Repeats book.ledger.length
      ↔ definition.owner = owner := by
  obtain ⟨last, hlast, hlname, hmax, hlowner, -⟩ := (h.current hname).last
  rw [Ledger.repeats_append_self]
  constructor
  · rintro ⟨j, hj, hjname, hjowner⟩
    have hup := h.owners j last (hmax j hj hjname) hlast
    have hle := howner last hlast
    have hown : book.ledger[j]!.owner = owner := hjowner
    omega
  · rintro rfl
    exact ⟨last, hlast, hlname, hlowner⟩

section Current

variable {ledger : Ledger} {mention : Mention} {slots : Nat → Slot} {slot : Slot}
  {definition previous : Definition Draft}

/-- One of the mentions is of some kind when one before the last is, or the last. -/
theorem exists_mention_append {p : Mention → Prop} :
    (∃ i < (ledger ++ [mention]).length, p (ledger ++ [mention])[i]!)
      ↔ (∃ i < ledger.length, p ledger[i]!) ∨ p mention := by
  constructor
  · rintro ⟨i, hi, hp⟩
    rcases Ledger.lt_or_eq_of_append hi with hil | rfl
    · exact Or.inl ⟨i, hil, by rwa [Ledger.get_append_left hil] at hp⟩
    · rw [Ledger.get_append_self] at hp
      exact Or.inr hp
  · rintro (⟨i, hi, hp⟩ | hp)
    · exact ⟨i, by simp; omega, by rwa [Ledger.get_append_left hi]⟩
    · exact ⟨ledger.length, by simp, by rwa [Ledger.get_append_self]⟩

/-- What was kept shows the same content after one more mention. -/
theorem flatMap_kept_update (name : String) (slot : Slot) :
    (ledger.kept name).flatMap (fun i => (Function.update slots ledger.length slot i).nodes)
      = (ledger.kept name).flatMap fun i => (slots i).nodes := by
  refine List.flatMap_congr fun i hi => ?_
  rw [Function.update_of_ne (Nat.ne_of_lt (Ledger.mem_kept.mp hi).1)]

/-- A mention of another name changes nothing. -/
theorem Current.other (h : Current ledger slots name definition) (hne : mention.name ≠ name) :
    Current (ledger ++ [mention]) (Function.update slots ledger.length slot) name definition where
  last := by
    obtain ⟨i, hi, hname, hmax, howner, hblock⟩ := h.last
    refine ⟨i, by simp; omega, ?_, fun j hj hjname => ?_, ?_, ?_⟩
    · rw [Ledger.get_append_left hi]
      exact hname
    · rcases Ledger.lt_or_eq_of_append hj with hjl | rfl
      · rw [Ledger.get_append_left hjl] at hjname
        exact hmax j hjl hjname
      · -- the further mention is of another name
        rw [Ledger.get_append_self] at hjname
        exact absurd hjname hne
    · rw [Ledger.get_append_left hi]
      exact howner
    · rw [Function.update_of_ne (Nat.ne_of_lt hi)]
      exact hblock
  mode := by
    rw [h.mode, exists_mention_append (p := fun m => m.name = name ∧ m.mode = .replace)]
    exact (or_iff_left fun hc => hne hc.1).symm
  wraps := h.wraps
  nodes := by
    rw [Ledger.kept_append_other hne, flatMap_kept_update]
    exact h.nodes

/-- The last mention of a name is the one that was added. -/
theorem last_append (howner : mention.owner = definition.owner)
    (hblock : slot.block = definition.block.id) :
    ∃ i < (ledger ++ [mention]).length, (ledger ++ [mention])[i]!.name = mention.name
      ∧ (∀ j < (ledger ++ [mention]).length,
          (ledger ++ [mention])[j]!.name = mention.name → j ≤ i)
      ∧ (ledger ++ [mention])[i]!.owner = definition.owner
      ∧ (Function.update slots ledger.length slot i).block = definition.block.id := by
  refine ⟨ledger.length, by simp, ?_, fun j hj _ => ?_, ?_, ?_⟩
  · rw [Ledger.get_append_self]
  · have := Ledger.lt_or_eq_of_append hj
    omega
  · rw [Ledger.get_append_self]
    exact howner
  · rw [Function.update_self]
    exact hblock

/-- The first mention of a name. -/
theorem current_initial (hnone : ∀ i < ledger.length, ledger[i]!.name ≠ name)
    (hblock : slot.block = block.id) (hnodes : slot.nodes = block.nodes) :
    Current (ledger ++ [newMention owner name block inside])
      (Function.update slots ledger.length slot) name (Registry.initial block owner) where
  last := by
    refine last_append (Registry.initial_owner block owner).symm ?_
    rw [Registry.initial_block]
    exact hblock
  mode := by
    rw [Registry.initial_mode,
      exists_mention_append (p := fun m => m.name = name ∧ m.mode = .replace)]
    constructor
    · exact fun hmode => Or.inr ⟨rfl, hmode⟩
    · rintro (⟨i, hi, hname, -⟩ | ⟨-, hmode⟩)
      · exact absurd hname (hnone i hi)
      · exact hmode
  wraps := Registry.wraps_initial block owner
  nodes := by
    have hrepeats : ¬ (ledger ++ [newMention owner name block inside] : Ledger).Repeats
        ledger.length := by
      rw [Ledger.repeats_append_self]
      rintro ⟨j, hj, hname, -⟩
      exact hnone j hj hname
    have hsurvives : (ledger ++ [newMention owner name block inside] : Ledger).Survives
        ledger.length :=
      Ledger.survives_append_self.mpr (Or.inr fun j hj hname => absurd hname (hnone j hj))
    have hkept : ledger.kept name = [] :=
      List.eq_nil_iff_forall_not_mem.mpr fun i hi =>
        hnone i (Ledger.mem_kept.mp hi).1 (Ledger.mem_kept.mp hi).2.1
    have hall : (ledger ++ [newMention owner name block inside] : Ledger).kept name
        = ledger.kept name ++ _ := Ledger.kept_append fun hc => absurd hc hrepeats
    rw [if_pos hsurvives, hkept, List.nil_append] at hall
    rw [hall, Registry.initial_block]
    simp [hnodes]

/-- A further mention of a name. -/
theorem Current.step (h : Current ledger slots name previous)
    (hrepeats : (ledger ++ [newMention owner name block inside] : Ledger).Repeats ledger.length
      ↔ previous.owner = owner) (id : BlockId)
    (hblock : slot.block = (Registry.step id previous block owner).block.id)
    (hnodes : slot.nodes = block.nodes) :
    Current (ledger ++ [newMention owner name block inside])
      (Function.update slots ledger.length slot) name
      (Registry.step id previous block owner) where
  last := last_append (Registry.step_owner id previous block owner).symm hblock
  mode := by
    rw [Registry.step_mode, h.mode,
      exists_mention_append (p := fun m => m.name = name ∧ m.mode = .replace)]
    exact or_congr_right ⟨fun hmode => ⟨rfl, hmode⟩, And.right⟩
  wraps := h.wraps.step id block owner
  nodes := by
    have hreplaces : previous.mode = .replace
        ↔ ¬ ∀ j < ledger.length, ledger[j]!.name = name → ledger[j]!.mode ≠ .replace := by
      rw [h.mode]
      push Not
      rfl
    have hsurvives : (ledger ++ [newMention owner name block inside] : Ledger).Survives
        ledger.length ↔ previous.owner = owner ∨ previous.mode ≠ .replace := by
      rw [Ledger.survives_append_self, hrepeats, ne_eq, hreplaces, not_not]
      rfl
    by_cases hdrops : previous.owner = owner ∧ block.props.mode = .replace
    · have hall : (ledger ++ [newMention owner name block inside] : Ledger).kept name
          = [ledger.length] :=
        Ledger.kept_append_of_replaces (hrepeats.mpr hdrops.1) hdrops.2
      rw [hall, Registry.step_nodes_of_replaces hdrops.1 hdrops.2]
      simp [hnodes]
    · have hall : (ledger ++ [newMention owner name block inside] : Ledger).kept name
          = ledger.kept name ++ _ :=
        Ledger.kept_append fun hr hmode => hdrops ⟨hrepeats.mp hr, hmode⟩
      by_cases hadds : previous.owner = owner ∨ previous.mode ≠ .replace
      · rw [if_pos (hsurvives.mpr hadds)] at hall
        rw [hall, List.flatMap_append, flatMap_kept_update, List.flatMap_singleton,
          Function.update_self, hnodes]
        refine List.Perm.trans ?_ (h.nodes.append_right block.nodes)
        by_cases ho : previous.owner = owner
        · exact Registry.step_nodes_of_repeat ho (fun hmode => hdrops ⟨ho, hmode⟩) id
        · exact Registry.step_nodes_of_wraps ho (hadds.resolve_left ho) h.wraps id
      · -- what a layout says about a name that was replaced is not kept
        rw [if_neg (mt hsurvives.mp hadds), List.append_nil] at hall
        rw [hall, flatMap_kept_update, Registry.step_nodes_of_kept (fun ho => hadds (Or.inl ho))
          (not_not.mp fun hmode => hadds (Or.inr hmode))]
        exact h.nodes

end Current

section Step

variable (h : Names book slots) (hs : Registry.Settled book.store book.registry)
  (hf : book.store.Fresh block)
  (howner : ∀ i < book.ledger.length, book.ledger[i]!.owner ≤ owner)

include h

/-- A mention was not given a block that is not recorded. -/
theorem Names.ne_of_unrecorded {id : BlockId} (hid : book.store.current.get? id = none) {i : Nat}
    (hi : i < book.ledger.length) : (slots i).block ≠ id := by
  obtain ⟨state, hstate, -⟩ := h.recorded i hi
  rintro rfl
  exact nomatch hid.symm.trans hstate

/-- The mentions that were given the block of a name are of that name. -/
theorem Names.name_of_block {definition : Definition Draft}
    (hname : book.registry.get? name = some definition) {i : Nat} (hi : i < book.ledger.length)
    (hblock : (slots i).block = definition.block.id) : book.ledger[i]!.name = name := by
  obtain ⟨last, hlast, hlname, -, -, hlblock⟩ := (h.current hname).last
  have hsame := (h.same i last hi hlast).mp (hblock.trans hlblock.symm)
  exact Eq.trans hsame.1 hlname

/-- The new definition follows from the mentions and the further one. -/
theorem Names.current_definitionAfter
    (howner : ∀ i < book.ledger.length, book.ledger[i]!.owner ≤ owner) {slot : Slot}
    (hnodes : slot.nodes = block.nodes)
    (hblock : slot.block
      = (Registry.definitionAfter book.store book.registry name block owner).block.id) :
    Current (book.ledger ++ [newMention owner name block inside])
      (Function.update slots book.ledger.length slot) name
      (Registry.definitionAfter book.store book.registry name block owner) := by
  unfold Registry.definitionAfter at hblock ⊢
  cases hname : book.registry.get? name with
  | none =>
      simp only [hname, Registry.initial_block] at hblock
      exact current_initial (h.unmentioned hname) hblock hnodes
  | some previous =>
      simp only [hname] at hblock
      exact (h.current hname).step (h.repeats_iff howner hname) _ hblock hnodes

include hs hf

/-- The block of a new definition is one that an earlier mention was given only when a layout adds
    to the name. -/
theorem Names.block_eq_iff {i : Nat} (hi : i < book.ledger.length) :
    (slots i).block
        = (Registry.definitionAfter book.store book.registry name block owner).block.id
      ↔ ∃ previous, book.registry.get? name = some previous ∧ previous.owner ≠ owner
        ∧ (slots i).block = previous.block.id := by
  obtain ⟨state, hstate, -⟩ := h.recorded i hi
  have hgiven := (hs.bounded hstate).1
  rcases Registry.definitionAfter_id book.store book.registry block name owner with
    ⟨hnone, hid⟩ | ⟨previous, hprevious, hid⟩
  · rw [hid, hnone]
    exact iff_of_false (h.ne_of_unrecorded hf.unrecorded hi) (by simp)
  · rw [hid, hprevious]
    by_cases ho : previous.owner = owner
    · rw [if_pos ho]
      refine iff_of_false (Nat.ne_of_lt hgiven) ?_
      rintro ⟨other, hother, hne, -⟩
      exact hne (Option.some.inj hother ▸ ho)
    · rw [if_neg ho]
      constructor
      · exact fun hb => ⟨previous, rfl, ho, hb⟩
      · rintro ⟨other, hother, -, hb⟩
        rw [Option.some.inj hother]
        exact hb

include howner

/-- An earlier mention and the further one were given one block when nothing repeats the name
    from the one to the other. -/
theorem Names.sameBlock_define {i : Nat} (hi : i < book.ledger.length) :
    (slots i).block
        = (Registry.definitionAfter book.store book.registry name block owner).block.id
      ↔ (book.ledger ++ [newMention owner name block inside] : Ledger).SameBlock i
          book.ledger.length := by
  rw [h.block_eq_iff hs hf hi]
  cases hname : book.registry.get? name with
  | none =>
      refine iff_of_false (by simp) fun hsame => ?_
      exact h.unmentioned hname i hi ((Ledger.sameName_append_self hi).mp hsame.1)
  | some previous =>
      obtain ⟨last, hlast, hlname, hmax, -, hlblock⟩ := (h.current hname).last
      rw [Ledger.sameBlock_append_self hi hlast hlname hmax, h.repeats_iff howner hname,
        ← h.same i last hi hlast, hlblock]
      constructor
      · rintro ⟨other, hother, hne, hb⟩
        rw [Option.some.inj hother]
        exact ⟨hb, hne⟩
      · rintro ⟨hb, hne⟩
        exact ⟨previous, rfl, hne, hb⟩

omit howner in
/-- After a definition every block that a mention was given is the one of its name, or empty. -/
theorem Names.recorded_define {i : Nat} (hi : i < book.ledger.length) :
    ∃ state, (book.registry.define book.store name block owner).store.current.get? (slots i).block
        = some state
      ∧ (state.nodes = [] ∨ ∃ definition,
        (book.registry.insert name
            (Registry.definitionAfter book.store book.registry name block owner)).get?
          book.ledger[i]!.name = some definition
          ∧ definition.block.id = (slots i).block) := by
  rw [Registry.current_define hs hf name owner, OrderedMap.get?_insert]
  by_cases hnew : (slots i).block
      = (Registry.definitionAfter book.store book.registry name block owner).block.id
  · obtain ⟨previous, hprevious, -, hb⟩ := (h.block_eq_iff hs hf hi).mp hnew
    rw [if_pos hnew, if_pos (h.name_of_block hprevious hi hb)]
    exact ⟨_, rfl, Or.inr ⟨_, rfl, hnew.symm⟩⟩
  · rw [if_neg hnew, if_neg (h.ne_of_unrecorded hf.unrecorded hi)]
    obtain ⟨state, hstate, hempty | ⟨definition, hdefinition, hb⟩⟩ := h.recorded i hi
    · cases hname : book.registry.get? name with
      | none => exact ⟨state, hstate, Or.inl hempty⟩
      | some previous =>
          simp only
          split
          · exact ⟨_, rfl, Or.inl rfl⟩
          · exact ⟨state, hstate, Or.inl hempty⟩
    · by_cases hsame : book.ledger[i]!.name = name
      · -- the block was that of the name, and is emptied now
        rw [hsame] at hdefinition
        simp only [hdefinition, if_pos hb.symm]
        exact ⟨_, rfl, Or.inl rfl⟩
      · rw [if_neg hsame]
        have hkept : ∀ {previous}, book.registry.get? name = some previous →
            (slots i).block ≠ previous.block.id := fun hprevious hp =>
          hsame (h.name_of_block hprevious hi hp)
        refine ⟨state, ?_, Or.inr ⟨definition, hdefinition, hb⟩⟩
        cases hname : book.registry.get? name with
        | none => exact hstate
        | some previous =>
            simp only [if_neg (hkept hname)]
            exact hstate

/-- **One mention.**  Defining a name keeps registry and store in step with the mentions. -/
theorem Names.define (plain : List BlockId) :
    Names (book.define owner name block inside).2
      (Function.update slots book.ledger.length
        ⟨(book.define owner name block inside).1.id, block.nodes, plain⟩) := by
  have hresult : (book.define owner name block inside).1.id
      = (Registry.definitionAfter book.store book.registry name block owner).block.id :=
    congrArg Block.id (Registry.define_block hs hf name owner)
  have hledger : (book.define owner name block inside).2.ledger
      = book.ledger ++ [newMention owner name block inside] := rfl
  have hregistry : (book.define owner name block inside).2.registry = book.registry.insert name _ :=
    Registry.define_registry hs hf name owner
  constructor
  case owners =>
    rw [hledger]
    intro i j hij hj
    rcases Ledger.lt_or_eq_of_append hj with hj | rfl
    · rw [Ledger.get_append_left (by omega), Ledger.get_append_left hj]
      exact h.owners i j hij hj
    · rcases Nat.lt_or_eq_of_le hij with hi | rfl
      · rw [Ledger.get_append_self, Ledger.get_append_left hi]
        exact howner i hi
      · exact Nat.le_refl _
  case unmentioned =>
    rw [hledger, hregistry]
    intro other hnone i hi
    rw [OrderedMap.get?_insert] at hnone
    split at hnone
    · cases hnone
    · next hne =>
        rcases Ledger.lt_or_eq_of_append hi with hi | rfl
        · rw [Ledger.get_append_left hi]
          exact h.unmentioned hnone i hi
        · rw [Ledger.get_append_self]
          exact fun hsame => hne hsame.symm
  case current =>
    rw [hledger, hregistry]
    intro other definition hdefinition
    rw [OrderedMap.get?_insert] at hdefinition
    split at hdefinition
    · next hsame =>
        rw [hsame, ← Option.some.inj hdefinition]
        exact h.current_definitionAfter howner rfl hresult
    · next hne =>
        exact (h.current hdefinition).other fun hsame => hne hsame.symm
  case recorded =>
    rw [hledger, hregistry]
    intro i hi
    rcases Ledger.lt_or_eq_of_append hi with hi | rfl
    · rw [Function.update_of_ne (Nat.ne_of_lt hi), Ledger.get_append_left hi]
      exact h.recorded_define hs hf hi
    · rw [Function.update_self, Ledger.get_append_self, hresult]
      have hinserted := OrderedMap.get?_insert_self book.registry name
        (Registry.definitionAfter book.store book.registry name block owner)
      have hrecorded := (Registry.define_settled hs hf name owner).recorded
        (hregistry.symm ▸ hinserted)
      exact ⟨_, hrecorded, Or.inr ⟨_, hinserted, rfl⟩⟩
  case same =>
    rw [hledger]
    have hlast : ∀ i < book.ledger.length,
        ((slots i).block = (book.define owner name block inside).1.id
          ↔ (book.ledger ++ [newMention owner name block inside] : Ledger).SameBlock i
              book.ledger.length) := by
      intro i hi
      rw [hresult]
      exact h.sameBlock_define hs hf howner hi
    intro i j hi hj
    rcases Ledger.lt_or_eq_of_append hi with hi | rfl
      <;> rcases Ledger.lt_or_eq_of_append hj with hj | rfl
    · rw [Function.update_of_ne (Nat.ne_of_lt hi), Function.update_of_ne (Nat.ne_of_lt hj),
        Ledger.sameBlock_append hi hj]
      exact h.same i j hi hj
    · rw [Function.update_of_ne (Nat.ne_of_lt hi), Function.update_self]
      exact hlast i hi
    · rw [Function.update_of_ne (Nat.ne_of_lt hj), Function.update_self, eq_comm, hlast j hj]
      exact ⟨Ledger.SameBlock.symm, Ledger.SameBlock.symm⟩
    · exact iff_of_true rfl ⟨rfl, fun k hlow hhigh => by omega⟩

end Step

end Define

end Placement

end Stencil
