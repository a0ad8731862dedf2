import Stencil.Proofs.Node.Renaming
import Stencil.Proofs.Registry.Renaming

/-! # Copying named blocks under other names

    A snapshot gives every block in it a new identity, counted from the next one
    on.  Where identities were renamed, a renaming for the new ones goes on from
    the old one: it takes a copy to the copy of what the original is taken to. -/

namespace Stencil

open Registry

/-! ## Renamings one after the other -/

/-- A renaming after another one. -/
def Renaming.after (σ ρ : Renaming) : Renaming :=
  ⟨fun id => σ.ids (ρ.ids id), ρ.shift + σ.shift, σ.injective.comp ρ.injective⟩

/-- Identities further up. -/
def Renaming.raising (offset : BlockId) : Renaming :=
  ⟨(offset + ·), 0, fun _ _ => Nat.add_left_cancel⟩

/-- Renaming twice is renaming once. -/
class LawfulRenames (α : Type) [Renames α] : Prop where
  rename_rename : ∀ (σ ρ : Renaming) (value : α),
    rename σ (rename ρ value) = rename (σ.after ρ) value

export LawfulRenames (rename_rename)

section Instances

variable {α β κ : Type} [Renames α] [Renames β] [Renames κ] [LawfulRenames α] [LawfulRenames β]
  [LawfulRenames κ]

theorem Node.relabel_relabel {ι κ μ : Type} (g : κ → μ) (f : ι → κ) (node : Node ι) :
    (node.relabel f).relabel g = node.relabel fun id => g (f id) := by
  induction node using induct with
  | h own line kind children ih =>
      have hkind : (kind.relabel f).relabel g = kind.relabel fun id => g (f id) := by
        cases kind <;> rfl
      have hchildren : (children.map (relabel f)).map (relabel g)
          = children.map (relabel fun id => g (f id)) := by
        rw [List.map_map]
        exact List.map_congr_left ih
      rw [relabel_make, relabel_make, relabel_make, hkind, hchildren, Option.map_map]
      rfl

instance : LawfulRenames String := ⟨fun _ _ _ => rfl⟩

instance : LawfulRenames BlockId := ⟨fun _ _ _ => rfl⟩

instance : LawfulRenames Draft := ⟨fun σ ρ => Node.relabel_relabel σ.ids ρ.ids⟩

instance : LawfulRenames (List α) where
  rename_rename σ ρ values := by
    show (values.map (rename ρ)).map (rename σ) = values.map (rename (σ.after ρ))
    rw [List.map_map]
    exact List.map_congr_left fun value _ => rename_rename σ ρ value

instance : LawfulRenames (Block BlockId Draft) where
  rename_rename σ ρ block :=
    congrArg (Block.mk _ block.line block.props) (rename_rename σ ρ block.nodes)

instance : LawfulRenames (α × β) where
  rename_rename σ ρ pair := Prod.ext (rename_rename σ ρ pair.1) (rename_rename σ ρ pair.2)

instance : LawfulRenames (OrderedMap κ α) where
  rename_rename σ ρ map := congrArg OrderedMap.mk (rename_rename σ ρ map.entries)

instance : LawfulRenames (Definition Draft) where
  rename_rename σ ρ definition := by
    obtain ⟨block, mode, owner, head, tail⟩ := definition
    show Definition.mk (rename σ (rename ρ block)) mode (owner + ρ.shift + σ.shift)
      (rename σ (rename ρ head)) (rename σ (rename ρ tail)) = _
    rw [rename_rename, rename_rename, rename_rename, Nat.add_assoc]
    rfl

end Instances

/-! ## Support -/

/-- Only identities below a bound stand in a value: a renaming of it has nothing else to go by. -/
def Supported {α : Type} [Renames α] (bound : BlockId) (value : α) : Prop :=
  ∀ σ τ : Renaming, σ.shift = τ.shift → (∀ id < bound, σ.ids id = τ.ids id) →
    rename σ value = rename τ value

section Support

variable {α β : Type} [Renames α] [Renames β] {bound other : BlockId}

theorem Supported.mono {value : α} (h : Supported bound value) (hle : bound ≤ other) :
    Supported other value := fun σ τ hshift hsame =>
  h σ τ hshift fun id hid => hsame id (Nat.lt_of_lt_of_le hid hle)

theorem supported_list {values : List α} :
    Supported bound values ↔ ∀ value ∈ values, Supported bound value := by
  constructor
  · intro h value hvalue σ τ hshift hsame
    exact List.map_inj_left.mp (h σ τ hshift hsame) value hvalue
  · intro h σ τ hshift hsame
    exact List.map_congr_left fun value hvalue => h value hvalue σ τ hshift hsame

theorem Supported.raise [LawfulRenames α] {value : α} (h : Supported bound value)
    (offset : BlockId) : Supported (offset + bound) (rename (.raising offset) value) := by
  intro σ τ hshift hsame
  rw [rename_rename, rename_rename]
  refine h _ _ (congrArg (0 + ·) hshift) fun id hid => hsame _ (Nat.add_lt_add_left hid offset)

section Maps

variable {κ : Type} [Renames κ] {map : OrderedMap κ α}

theorem Supported.entries (h : Supported bound map) : Supported bound map.entries :=
  fun σ τ hshift hsame => congrArg OrderedMap.entries (h σ τ hshift hsame)

theorem Supported.map_entries (h : Supported bound map.entries) : Supported bound map :=
  fun σ τ hshift hsame => congrArg OrderedMap.mk (h σ τ hshift hsame)

end Maps

end Support

namespace Registry

/-- What is defined has the identities that were there and those that were given away. -/
theorem supported_define {store : Store Draft} {registry : Registry Draft}
    {block : Block BlockId Draft} (hcurrent : Supported store.next store.current)
    (hregistry : Supported store.next registry) (hblock : Supported store.next block)
    (name : String) (owner : Nat) :
    let defined := registry.define store name block owner
    let bound := store.next + identitiesFor registry name
    Supported bound defined.block ∧ Supported bound defined.store.current
      ∧ Supported bound defined.registry := by
  intro defined bound
  -- the outcome in a renamed state depends on the known identities alone
  let state (σ : Renaming) : Store Draft :=
    { next := if (registry.get? name).isSome then σ.ids store.next else 0,
      current := rename σ store.current }
  have hrenamed : ∀ σ : Renaming, Renamed σ (identitiesFor registry name) store (state σ) defined
      ((rename σ registry).define (state σ) name (rename σ block) (owner + σ.shift)) := fun σ =>
    have hstate : store.Renamed σ (state σ) := rfl
    define_rename hstate registry name (fun hsome => if_pos hsome) block owner
  have hsame : ∀ σ τ : Renaming, σ.shift = τ.shift → (∀ id < bound, σ.ids id = τ.ids id) →
      (rename σ registry).define (state σ) name (rename σ block) (owner + σ.shift)
        = (rename τ registry).define (state τ) name (rename τ block) (owner + τ.shift) := by
    intro σ τ hshift hids
    have hknown : ∀ id < store.next, σ.ids id = τ.ids id := fun id hid =>
      hids id (Nat.lt_add_right _ hid)
    have hnext : (state σ).next = (state τ).next := by
      show (if (registry.get? name).isSome then σ.ids store.next else 0)
        = if (registry.get? name).isSome then τ.ids store.next else 0
      split
      · next hsome =>
          refine hids _ (Nat.lt_add_of_pos_right ?_)
          rw [identitiesFor, if_pos hsome]
          exact Nat.one_pos
      · rfl
    have hstate : state σ = state τ := by
      rw [show state σ = ⟨(state σ).next, rename σ store.current⟩ from rfl, hnext,
        hcurrent σ τ hshift hknown]
    rw [hstate, hregistry σ τ hshift hknown, hblock σ τ hshift hknown, hshift]
  refine ⟨fun σ τ hshift hids => ?_, fun σ τ hshift hids => ?_, fun σ τ hshift hids => ?_⟩
  · rw [← (hrenamed σ).block, ← (hrenamed τ).block, hsame σ τ hshift hids]
  · have hσ : _ = rename σ defined.store.current := (hrenamed σ).store
    have hτ : _ = rename τ defined.store.current := (hrenamed τ).store
    rw [← hσ, ← hτ, hsame σ τ hshift hids]
  · rw [← (hrenamed σ).registry, ← (hrenamed τ).registry, hsame σ τ hshift hids]

/-! ## Blocks that are found -/

section Found

variable {ρ : Renaming} {store other : Store Draft} (h : store.Renamed ρ other)

theorem flatMap_blockIds_rename (ρ : Renaming) (nodes : List Draft) :
    (rename ρ nodes).flatMap blockIds = (nodes.flatMap blockIds).map ρ.ids := by
  show (nodes.map (Node.relabel ρ.ids)).flatMap blockIds = _
  rw [List.flatMap_map, List.map_flatMap]
  simp only [blockIds_relabel]

theorem mentioned_rename (ρ : Renaming) (registry : Registry Draft) :
    (rename ρ registry).mentioned = registry.mentioned.map ρ.ids := by
  rw [← mentioned_renamed]
  show ((rename ρ registry).values.flatMap Definition.blockIds)
    = (registry.renamed ρ.ids).values.flatMap Definition.blockIds
  simp only [OrderedMap.values, rename, renamed, OrderedMap.mapValues, List.map_map,
    List.flatMap_map]
  rfl

theorem eraseDups_map {f : BlockId → BlockId} (hf : Function.Injective f) (ids : List BlockId) :
    (ids.map f).eraseDups = ids.eraseDups.map f := by
  -- an identity is kept before the later ones that are not the same
  induction hlength : ids.length using Nat.strongRecOn generalizing ids with
  | ind length ih =>
      cases ids with
      | nil => rfl
      | cons id ids =>
          have hfilter : (ids.map f).filter (fun other => !other == f id)
              = (ids.filter fun other => !other == id).map f := by
            rw [List.filter_map]
            congr 1
            refine List.filter_congr fun other _ => ?_
            simp [hf.eq_iff]
          have hshorter : (ids.filter fun other => !other == id).length < length := by
            rw [← hlength]
            exact Nat.lt_succ_of_le (List.length_filter_le ..)
          rw [List.map_cons, List.eraseDups_cons, List.eraseDups_cons, hfilter, List.map_cons,
            ih _ hshorter _ rfl]

include h

theorem inside_rename (id : BlockId) :
    inside other (ρ.ids id) = (inside store id).map ρ.ids := by
  have hget : other.current.get? (ρ.ids id) = rename ρ (store.current.get? id) := by
    rw [h]
    exact OrderedMap.get?_rename ρ.injective store.current id
  rw [inside, inside, hget]
  cases store.current.get? id with
  | none => rfl
  | some block => exact flatMap_blockIds_rename ρ block.nodes

theorem withInner_rename (fuel : Nat) : ∀ ids : List BlockId,
    withInner other fuel (ids.map ρ.ids) = (withInner store fuel ids).map ρ.ids := by
  induction fuel with
  | zero =>
      intro ids
      rw [withInner, withInner, h]
      simp only [OrderedMap.keys, rename, List.map_map]
      rfl
  | succ fuel ih =>
      intro ids
      have hmore : ((ids.map ρ.ids).flatMap (inside other)).filter
            (fun id => !(ids.map ρ.ids).contains id)
          = ((ids.flatMap (inside store)).filter fun id => !ids.contains id).map ρ.ids := by
        rw [List.flatMap_map]
        simp only [inside_rename h]
        rw [← List.map_flatMap, List.filter_map]
        congr 1
        refine List.filter_congr fun id _ => ?_
        rw [Function.comp_apply, Node.contains_map ρ.injective]
      rw [withInner, withInner, hmore, List.isEmpty_map]
      split
      · rfl
      · rw [eraseDups_map ρ.injective, ← List.map_append]
        exact ih _

theorem recorded_rename (registry : Registry Draft) :
    recorded other (rename ρ registry) = rename ρ (recorded store registry) := by
  have hsize : other.current.size = store.current.size := by
    rw [h]
    exact List.length_map _
  rw [recorded, recorded, mentioned_rename, hsize, withInner_rename h, h]
  show (store.current.entries.map (rename ρ)).filter _ = (store.current.entries.filter _).map _
  rw [List.filter_map]
  congr 1
  refine List.filter_congr fun entry _ => ?_
  exact Node.contains_map ρ.injective _ entry.1

end Found

end Registry

/-! ## Snapshots -/

namespace Renaming

/-- From an identity on, identities are renamed in their order. -/
def Fits (ρ : Renaming) (next : BlockId) : Prop :=
  ∀ count, ρ.ids (next + count) = ρ.ids next + count

variable {ρ : Renaming} {next : BlockId}

theorem Fits.later (h : ρ.Fits next) (given : Nat) : ρ.Fits (next + given) := fun count => by
  rw [h given, Nat.add_assoc, h, Nat.add_assoc]

/-- Identities that come before stay before. -/
theorem Fits.lt (h : ρ.Fits next) {id : BlockId} (hid : id < next) : ρ.ids id < ρ.ids next := by
  refine Nat.lt_of_not_le fun hle => ?_
  obtain ⟨count, hcount⟩ := Nat.exists_eq_add_of_le hle
  have hsame : id = next + count := ρ.injective (hcount.trans (h count).symm)
  exact absurd hid (Nat.not_lt.mpr (hsame ▸ Nat.le_add_right ..))

/-- A renaming that goes on, for the copies of what has identities below the next one. -/
def copying (ρ : Renaming) (next : BlockId) (h : ρ.Fits next) : Renaming where
  ids id := if id < next then ρ.ids id else ρ.ids next + ρ.ids (id - next)
  shift := ρ.shift
  injective := by
    intro id other hsame
    dsimp only at hsame
    split at hsame <;> split at hsame
    · exact ρ.injective hsame
    · next hid _ => exact absurd hsame (Nat.ne_of_lt (Nat.lt_add_right _ (h.lt hid)))
    · next _ hother => exact absurd hsame.symm (Nat.ne_of_lt (Nat.lt_add_right _ (h.lt hother)))
    · next hid hother =>
        have hids := ρ.injective (Nat.add_left_cancel hsame)
        rw [← Nat.sub_add_cancel (Nat.not_lt.mp hid), hids,
          Nat.sub_add_cancel (Nat.not_lt.mp hother)]

theorem copying_old (h : ρ.Fits next) {id : BlockId} (hid : id < next) :
    (ρ.copying next h).ids id = ρ.ids id :=
  if_pos hid

/-- The copy has the name that its original gives it. -/
theorem copying_new (h : ρ.Fits next) (id : BlockId) :
    (ρ.copying next h).ids (next + id) = ρ.ids next + ρ.ids id := by
  show (if next + id < next then _ else _) = _
  rw [if_neg (Nat.not_lt.mpr (Nat.le_add_right ..)), Nat.add_sub_cancel_left]

theorem fits_copying (h : ρ.Fits next) : (ρ.copying next h).Fits (next + next) := by
  intro count
  rw [Nat.add_assoc, copying_new, copying_new, h, Nat.add_assoc]

theorem copying_raising {α : Type} [Renames α] [LawfulRenames α] (h : ρ.Fits next) (value : α) :
    rename (ρ.copying next h) (rename (raising next) value)
      = rename (raising (ρ.ids next)) (rename ρ value) := by
  have hsame : (ρ.copying next h).after (raising next) = (raising (ρ.ids next)).after ρ :=
    Renaming.ext (funext (copying_new h)) (Nat.add_comm ..)
  rw [rename_rename, rename_rename, hsame]

end Renaming

namespace Registry

theorem snapshot_eq (store : Store Draft) (registry : Registry Draft) :
    snapshot store registry
      = ({ next := store.next + store.next,
           current := ⟨store.current.entries
              ++ rename (.raising store.next) (recorded store registry)⟩ },
          rename (.raising store.next) registry) :=
  rfl

variable {ρ : Renaming} {store other : Store Draft}

/-- **Snapshots of renamed states** are renamed snapshots. -/
theorem snapshot_rename (h : store.Renamed ρ other) (hnext : other.next = ρ.ids store.next)
    (hfits : ρ.Fits store.next) (hstore : Supported store.next store.current)
    (registry : Registry Draft) :
    (snapshot store registry).1.Renamed (ρ.copying store.next hfits)
        (snapshot other (rename ρ registry)).1
      ∧ (snapshot other (rename ρ registry)).2
        = rename (ρ.copying store.next hfits) (snapshot store registry).2 := by
  have hold : rename (ρ.copying store.next hfits) store.current = rename ρ store.current :=
    hstore _ _ rfl fun id hid => Renaming.copying_old hfits hid
  rw [snapshot_eq, snapshot_eq, hnext, recorded_rename h, ← Renaming.copying_raising hfits,
    ← Renaming.copying_raising hfits]
  refine ⟨?_, rfl⟩
  show OrderedMap.mk _ = OrderedMap.mk (List.map _ (_ ++ _))
  rw [h, List.map_append, ← hold]
  rfl

theorem supported_snapshot (hstore : Supported store.next store.current)
    {registry : Registry Draft} (hregistry : Supported store.next registry) :
    Supported (store.next + store.next) (snapshot store registry).1.current
      ∧ Supported (store.next + store.next) (snapshot store registry).2 := by
  have hentries := supported_list.mp hstore.entries
  have hrecorded : Supported store.next (recorded store registry) :=
    supported_list.mpr fun entry hentry => hentries entry (List.mem_filter.mp hentry).1
  have hle : store.next ≤ store.next + store.next := Nat.le_add_right ..
  refine ⟨Supported.map_entries (supported_list.mpr fun entry hentry => ?_),
    hregistry.raise store.next⟩
  rcases List.mem_append.mp hentry with hold | hnew
  · exact (hentries entry hold).mono hle
  · exact supported_list.mp (hrecorded.raise store.next) entry hnew

end Registry

end Stencil
