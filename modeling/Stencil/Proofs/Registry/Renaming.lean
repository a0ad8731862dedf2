import Stencil.Proofs.Registry.Lineless
import Stencil.Proofs.Registry.Relocation

/-! # Renaming what templates share

    Which identities nodes have depends on what was read before them, and so does
    the number of a template.  A renaming takes other identities and other
    numbers, no two of them for one; what is done with the named blocks gives the
    renamed outcome when everything is renamed, since identities are never
    compared but with one another. -/

namespace Stencil

open Registry

/-- Other identities for nodes, and other numbers for templates. -/
@[ext]
structure Renaming where
  ids : BlockId → BlockId
  /-- How much later a template has its number. -/
  shift : Nat
  injective : Function.Injective ids

/-- Values with identities in them. -/
class Renames (α : Type) where
  rename : Renaming → α → α

export Renames (rename)

section Instances

variable {α β κ : Type} [Renames α] [Renames β] [Renames κ]

instance : Renames Unit := ⟨fun _ value => value⟩

instance : Renames String := ⟨fun _ text => text⟩

instance : Renames BlockId := ⟨Renaming.ids⟩

instance : Renames Draft := ⟨fun ρ => Node.relabel ρ.ids⟩

instance : Renames (Block BlockId Draft) := ⟨fun ρ => Block.relabel ρ.ids⟩

instance : Renames (List α) := ⟨fun ρ => List.map (rename ρ)⟩

instance : Renames (Option α) := ⟨fun ρ => Option.map (rename ρ)⟩

instance : Renames (α × β) := ⟨fun ρ pair => (rename ρ pair.1, rename ρ pair.2)⟩

instance : Renames (OrderedMap κ α) := ⟨fun ρ map => ⟨rename ρ map.entries⟩⟩

instance : Renames (Definition Draft) where
  rename ρ definition :=
    { block := rename ρ definition.block, mode := definition.mode,
      owner := definition.owner + ρ.shift,
      head := rename ρ definition.head, tail := rename ρ definition.tail }

end Instances

variable (ρ : Renaming)

/-! ## Maps -/

namespace OrderedMap

variable {κ α : Type} [DecidableEq κ] [Renames κ] [Renames α] {ρ : Renaming}
  (hkey : Function.Injective (rename ρ : κ → κ))
include hkey

theorem get?_rename (map : OrderedMap κ α) (key : κ) :
    (rename ρ map).get? (rename ρ key) = rename ρ (map.get? key) := by
  obtain ⟨entries⟩ := map
  show (entries.map (rename ρ)).lookup (rename ρ key) = (entries.lookup key).map (rename ρ)
  induction entries with
  | nil => rfl
  | cons entry entries ih =>
      obtain ⟨own, value⟩ := entry
      have hentry : rename ρ (own, value) = (rename ρ own, rename ρ value) := rfl
      have hsame : (rename ρ key == rename ρ own) = (key == own) := by
        rw [Bool.eq_iff_iff, beq_iff_eq, beq_iff_eq, hkey.eq_iff]
      rw [List.map_cons, hentry, List.lookup_cons, List.lookup_cons, ih, hsame]
      cases key == own <;> rfl

theorem rename_insert (map : OrderedMap κ α) (key : κ) (value : α) :
    rename ρ (map.insert key value) = (rename ρ map).insert (rename ρ key) (rename ρ value) := by
  obtain ⟨entries⟩ := map
  refine congrArg OrderedMap.mk ?_
  show (insertEntry key value entries).map (rename ρ)
    = insertEntry (rename ρ key) (rename ρ value) (entries.map (rename ρ))
  induction entries with
  | nil => rfl
  | cons entry entries ih =>
      obtain ⟨own, held⟩ := entry
      rw [insertEntry, List.map_cons]
      show _ = if rename ρ own = rename ρ key then _ else _
      by_cases hown : own = key
      · rw [if_pos hown, if_pos (congrArg _ hown)]
        rfl
      · rw [if_neg hown, if_neg (hkey.ne hown), List.map_cons, ih]
        rfl

end OrderedMap

theorem rename_name_injective : Function.Injective (rename ρ : String → String) := fun _ _ => id

/-! ## The store -/

namespace Store

/-- The changed blocks of the second store are those of the first, renamed. -/
def Renamed (ρ : Renaming) (store other : Store Draft) : Prop :=
  other.current = rename ρ store.current

variable {ρ : Renaming} {store other : Store Draft} (h : store.Renamed ρ other)
include h

theorem Renamed.read (block : Block BlockId Draft) :
    other.read (rename ρ block) = rename ρ (store.read block) := by
  have hget := OrderedMap.get?_rename ρ.injective store.current block.id
  show (other.current.get? (rename ρ block.id)).getD (rename ρ block) = _
  rw [h, hget, Store.read]
  cases store.current.get? block.id <;> rfl

theorem Renamed.write (block : Block BlockId Draft) :
    (store.write block).Renamed ρ (other.write (rename ρ block)) := by
  show other.current.insert (rename ρ block.id) (rename ρ block) = _
  rw [h]
  exact (OrderedMap.rename_insert ρ.injective store.current block.id block).symm

theorem Renamed.setNodes (block : Block BlockId Draft) (nodes : List Draft) :
    (store.setNodes block nodes).Renamed ρ (other.setNodes (rename ρ block) (rename ρ nodes)) := by
  rw [Store.setNodes, Store.setNodes, h.read]
  exact h.write { store.read block with nodes }

theorem Renamed.relocates : store.Relocates ρ.ids (fun _ => True) other := by
  refine ⟨fun _ _ _ _ => trivial, fun id _ => ?_⟩
  rw [h]
  exact OrderedMap.get?_rename ρ.injective store.current id

theorem Renamed.resolve (nodes : List Draft) :
    (rename ρ nodes).map other.resolve = rename ρ (nodes.map store.resolve) := by
  have hsize : other.current.size = store.current.size := by
    rw [h]
    exact List.length_map _
  have hother : other.resolve = other.resolveWith (store.current.size + 1) := by
    funext node
    rw [Store.resolve, hsize]
  rw [hother]
  exact h.relocates.map_resolveWith _ nodes fun _ _ => trivial

theorem Renamed.resolveBlock (block : Block BlockId Draft) :
    other.resolveBlock (rename ρ block) = rename ρ (store.resolveBlock block) := by
  rw [Store.resolveBlock, Store.resolveBlock, h.read]
  show Block.mk _ _ _ ((rename ρ (store.read block).nodes).map other.resolve) = _
  rw [h.resolve]
  rfl

end Store

/-! ## Definitions -/

namespace Registry

theorem initial_rename (block : Block BlockId Draft) (owner : Nat) :
    initial (rename ρ block) (owner + ρ.shift) = rename ρ (initial block owner) := by
  obtain ⟨_, line, ⟨_, _, mode, _⟩, nodes⟩ := block
  cases mode <;> rfl

theorem sequential_rename (id : BlockId) (previous : Definition Draft) (existing : List Draft)
    (block : Block BlockId Draft) (owner : Nat) :
    sequential (ρ.ids id) (rename ρ previous) (rename ρ existing) (rename ρ block)
      (owner + ρ.shift) = rename ρ (sequential id previous existing block owner) := by
  obtain ⟨_, line, ⟨_, _, mode, _⟩, nodes⟩ := block
  obtain ⟨_, before, _, head, tail⟩ := previous
  cases mode <;> cases before <;> simp [sequential, merged, rename, Block.relabel]

theorem inherited_rename (previous : Definition Draft) (kept block : Block BlockId Draft)
    (owner : Nat) :
    inherited (rename ρ previous) (rename ρ kept) (rename ρ block) (owner + ρ.shift)
      = rename ρ (inherited previous kept block owner) := by
  obtain ⟨_, line, ⟨_, _, mode, _⟩, nodes⟩ := block
  obtain ⟨_, before, _, head, tail⟩ := previous
  cases mode <;> cases before <;> simp [inherited, rename, Block.relabel]

theorem next_emptyUnless (result : BlockId) (store : Store Draft) (block : Block BlockId Draft) :
    (emptyUnless result store block).next = store.next := by
  unfold emptyUnless
  split <;> rfl

/-- The number of identities that are given away when a name is defined. -/
def identitiesFor (registry : Registry Draft) (name : String) : Nat :=
  if (registry.get? name).isSome then 1 else 0

/-- A definition in a renamed state gives the same but for names, and takes as many new
    identities. -/
structure Renamed (ρ : Renaming) (count : Nat) (store other : Store Draft)
    (defined result : Defined Draft) : Prop where
  block : result.block = rename ρ defined.block
  registry : result.registry = rename ρ defined.registry
  next : defined.store.next = store.next + count
  next' : result.store.next = other.next + count
  store : defined.store.Renamed ρ result.store

variable {ρ : Renaming} {store other : Store Draft} (h : store.Renamed ρ other)
include h

theorem emptyUnless_rename (result : BlockId) (block : Block BlockId Draft) :
    (emptyUnless result store block).Renamed ρ
      (emptyUnless (ρ.ids result) other (rename ρ block)) := by
  unfold emptyUnless
  have hsame : (rename ρ block).id = ρ.ids result ↔ block.id = result := ρ.injective.eq_iff
  by_cases hid : block.id = result
  · rw [if_pos hid, if_pos (hsame.mpr hid)]
    exact h
  · rw [if_neg hid, if_neg fun h => hid (hsame.mp h)]
    exact h.setNodes block []

theorem redefinition_rename (hnext : other.next = ρ.ids store.next)
    (previous : Definition Draft) (block : Block BlockId Draft) (owner : Nat) :
    redefinition other (rename ρ previous) (rename ρ block) (owner + ρ.shift)
      = rename ρ (redefinition store previous block owner) := by
  have hread : other.read (rename ρ previous).block = rename ρ (store.read previous.block) :=
    h.read previous.block
  have howner : (rename ρ previous).owner = owner + ρ.shift ↔ previous.owner = owner :=
    Nat.add_right_cancel_iff
  rw [redefinition, redefinition, hread, hnext]
  by_cases hsame : previous.owner = owner
  · rw [if_pos hsame, if_pos (howner.mpr hsame)]
    exact sequential_rename ρ _ previous _ block owner
  · rw [if_neg hsame, if_neg fun h => hsame (howner.mp h), inherited_rename]

theorem define_rename (registry : Registry Draft) (name : String)
    (hnext : (registry.get? name).isSome → other.next = ρ.ids store.next)
    (block : Block BlockId Draft) (owner : Nat) :
    Renamed ρ (identitiesFor registry name) store other (registry.define store name block owner)
      ((rename ρ registry).define other name (rename ρ block) (owner + ρ.shift)) := by
  have hget : (rename ρ registry).get? name = rename ρ (registry.get? name) :=
    OrderedMap.get?_rename (rename_name_injective ρ) registry name
  have hinsert : ∀ definition : Definition Draft,
      (rename ρ registry).insert name (rename ρ definition)
        = rename ρ (registry.insert name definition) := fun definition =>
    (OrderedMap.rename_insert (rename_name_injective ρ) registry name definition).symm
  have hread := h.read block
  unfold identitiesFor
  cases hname : registry.get? name with
  | none =>
      rw [hname] at hget
      rw [define_of_none hname, define_of_none hget, hread, initial_rename, hinsert]
      exact ⟨rfl, rfl, rfl, rfl, h.write _⟩
  | some previous =>
      rw [hname] at hget
      have hmade := redefinition_rename h (hnext (hname ▸ rfl)) previous (store.read block) owner
      rw [define_of_some hname, define_of_some hget, hread, hmade]
      generalize redefinition store previous (store.read block) owner = definition
      have htaken : store.taken.Renamed ρ other.taken := h
      dsimp only
      rw [hinsert]
      refine ⟨rfl, rfl, ?_, ?_, ?_⟩
      · rw [next_emptyUnless, next_emptyUnless]
        rfl
      · rw [next_emptyUnless, next_emptyUnless]
        rfl
      · exact emptyUnless_rename (emptyUnless_rename (htaken.write definition.block) _
          previous.block) _ (store.read block)

end Registry

end Stencil
