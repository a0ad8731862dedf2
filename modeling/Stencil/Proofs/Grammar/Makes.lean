import Stencil.Proofs.Grammar.Ensures
import Stencil.Proofs.Node.Origins

/-! # What a reader makes — trees of nodes from a collection

    `Assembly.MadeOf K foreign` says that whatever the templates of a composition
    share is made of nodes from a collection, as far as it can be come to from the
    collection, and that the table of mixins lists definitions, each under its
    own name and no two of them one node.  Foreign definitions may be in the table
    as well, made of anything.  An action `Makes` what is good when its successful
    runs keep that, take no identity back and no definition out of the table but
    for a new one (`Assembly.Grows`), and give a good result.

    The collection stays the same along a run and takes in every new node, so
    nothing has to be said about what is held: a result that is good stays so. -/

namespace Stencil

open Node Registry

/-- The name of the mixin that a node defines. -/
def Node.definedName? (node : Draft) : Option String :=
  match node.kind with
  | .mixin element _ false => some element.name
  | _ => none

/-- The table of mixins lists definitions under their names, and no node twice. -/
structure Assembly.Listed (assembly : Assembly) : Prop where
  defines : ∀ entry ∈ assembly.mixins.entries, entry.2.definedName? = some entry.1
  given : ∀ mixin ∈ assembly.mixins.values, ∃ id, mixin.id? = some id ∧ id < assembly.store.next
  distinct : (assembly.mixins.values.map Node.id?).Nodup

/-- What templates share is made of nodes from a collection, but for some definitions in the
    table. -/
structure Assembly.MadeOf (K : BlockId → Prop) (foreign : List Draft) (assembly : Assembly) :
    Prop where
  store : assembly.store.Closed K
  registry : ∀ definition ∈ assembly.registry.values, definition.MadeOf K
  mixins : ∀ mixin ∈ assembly.mixins.values, mixin.MadeOf K ∨ mixin ∈ foreign
  listed : assembly.Listed

/-- Under a name, the table has a definition now that was not there before. -/
def Assembly.DefinesNew (before after : Assembly) (name : String) : Prop :=
  ∃ new id, after.mixins.get? name = some new ∧ new.id? = some id ∧ before.store.next ≤ id

/-- No identity was taken back, and the table has the same definition under a name or a new one. -/
structure Assembly.Grows (before after : Assembly) : Prop where
  next : before.store.next ≤ after.store.next
  mixins : ∀ name, after.mixins.get? name = before.mixins.get? name
    ∨ before.DefinesNew after name

variable {σ α β : Type} {K : BlockId → Prop} {foreign : List Draft}

theorem Assembly.Grows.of_same {before after : Assembly} (hmixins : after.mixins = before.mixins)
    (hnext : before.store.next ≤ after.store.next) : before.Grows after :=
  ⟨hnext, fun _ => .inl (hmixins ▸ rfl)⟩

theorem Assembly.Grows.refl (assembly : Assembly) : assembly.Grows assembly :=
  .of_same rfl (Nat.le_refl _)

theorem Assembly.Grows.trans {first middle last : Assembly} (h : first.Grows middle)
    (hlast : middle.Grows last) : first.Grows last := by
  refine ⟨Nat.le_trans h.next hlast.next, fun name => ?_⟩
  rcases hlast.mixins name with hsame | ⟨new, id, hnew, hid, hle⟩
  · rcases h.mixins name with hfirst | ⟨new, id, hnew, hid, hle⟩
    · exact .inl (hsame.trans hfirst)
    · exact .inr ⟨new, id, hsame.trans hnew, hid, hle⟩
  · exact .inr ⟨new, id, hnew, hid, Nat.le_trans h.next hle⟩

/-- The table is the same, and no identity was taken back. -/
theorem Assembly.Listed.of_same {before after : Assembly} (h : before.Listed)
    (hmixins : after.mixins = before.mixins) (hnext : before.store.next ≤ after.store.next) :
    after.Listed := by
  refine ⟨hmixins ▸ h.defines, fun mixin hmem => ?_, hmixins ▸ h.distinct⟩
  obtain ⟨id, hid, hlt⟩ := h.given mixin (hmixins ▸ hmem)
  exact ⟨id, hid, Nat.lt_of_lt_of_le hlt hnext⟩

theorem listed_of_empty {assembly : Assembly} (h : assembly.mixins = .empty) :
    assembly.Listed := by
  constructor <;> rw [h]
  · exact nofun
  · exact nofun
  · exact List.nodup_nil

theorem Assembly.Listed.isSome_definedName? {assembly : Assembly} (h : assembly.Listed) :
    ∀ mixin ∈ assembly.mixins.values, mixin.definedName?.isSome := by
  intro mixin hmem
  obtain ⟨entry, hentry, rfl⟩ := List.mem_map.mp hmem
  exact h.defines entry hentry ▸ rfl

/-- Everything is made of nodes. -/
theorem Assembly.Listed.madeOf {assembly : Assembly} (h : assembly.Listed) :
    assembly.MadeOf (fun _ => True) [] :=
  have hnode : ∀ node : Draft, node.MadeOf fun _ => True := fun _ _ _ _ _ => trivial
  ⟨⟨fun _ _ => trivial, fun _ _ _ _ => hnode _⟩, fun _ _ => ⟨hnode _, fun _ _ => hnode _,
    fun _ _ => hnode _⟩, fun _ _ => .inl (hnode _), h⟩

theorem Assembly.MadeOf.definitions {assembly : Assembly} (h : assembly.MadeOf K []) :
    ∀ mixin ∈ assembly.mixins.values, mixin.MadeOf K :=
  fun mixin hmem => (h.mixins mixin hmem).resolve_right List.not_mem_nil

theorem Assembly.MadeOf.taken {assembly : Assembly} (h : assembly.MadeOf K foreign) :
    Assembly.MadeOf K foreign { assembly with store := assembly.store.taken } :=
  ⟨h.store.taken, h.registry, h.mixins, h.listed.of_same rfl (Nat.le_succ _)⟩

/-- Successful runs keep what is shared within the collection and give a good result. -/
def Makes (shared : σ → Assembly) (K : BlockId → Prop) (foreign : List Draft)
    (action : EStateM Fault σ α) (good : α → Prop) : Prop :=
  ∀ state result after, action state = .ok result after → (shared state).MadeOf K foreign →
    (shared after).MadeOf K foreign ∧ (shared state).Grows (shared after) ∧ good result

section Rules

variable {shared : σ → Assembly} {action : EStateM Fault σ α} {m good : α → Prop}

theorem makes_pure {result : α} (h : good result) : Makes shared K foreign (pure result) good := by
  rintro state _ _ ⟨⟩ hmade
  exact ⟨hmade, .refl _, h⟩

theorem Makes.bind {next : α → EStateM Fault σ β} {goal : β → Prop}
    (h : Makes shared K foreign action m)
    (hnext : ∀ result, m result → Makes shared K foreign (next result) goal) :
    Makes shared K foreign (action >>= next) goal := by
  intro state result after hrun hmade
  obtain ⟨first, middle, hfirst, hrest⟩ := Parse.bind_eq_ok hrun
  obtain ⟨hmiddle, hgrows, hm⟩ := h _ _ _ hfirst hmade
  obtain ⟨hafter, hgrows', hgoal⟩ := hnext first hm _ _ _ hrest hmiddle
  exact ⟨hafter, hgrows.trans hgrows', hgoal⟩

theorem Makes.ite {condition : Prop} [Decidable condition] {other : EStateM Fault σ α}
    (h : Makes shared K foreign action good) (hother : Makes shared K foreign other good) :
    Makes shared K foreign (if condition then action else other) good := by
  split
  · exact h
  · exact hother

theorem makes_throw (fault : Fault) :
    Makes shared K foreign (throw fault : EStateM Fault σ α) good := by
  rintro state result after ⟨⟩

end Rules

namespace Parse

variable {template : Template} {good : α → Prop}

/-- A quiet reader, and one that goes on with its result. -/
theorem Quiet.make {reader : Parse α} {next : α → Parse β} {goal : β → Prop} (h : Quiet reader)
    (hnext : ∀ result, Makes Progress.assembly K foreign (next result) goal) :
    Makes Progress.assembly K foreign (reader >>= next) goal := by
  have hreader : Makes Progress.assembly K foreign reader fun _ => True := by
    intro progress result after hrun hmade
    have hsame := h _ _ _ hrun
    have hle : progress.assembly.store.next ≤ after.assembly.store.next :=
      Nat.le_of_eq (congrArg Store.next hsame.store.symm)
    have hafter : after.assembly.MadeOf K foreign :=
      ⟨hsame.store ▸ hmade.store, hsame.registry ▸ hmade.registry, hsame.mixins ▸ hmade.mixins,
        hmade.listed.of_same hsame.mixins hle⟩
    exact ⟨hafter, .of_same hsame.mixins hle, trivial⟩
  exact hreader.bind fun result _ => hnext result

theorem makes_fail (cause : Cause) (line : Int) :
    Makes Progress.assembly K foreign (fail template cause line : Parse α) good := by
  rintro state result after ⟨⟩

/-- An action on what templates share, run as a reader. -/
theorem makes_assemble {action : Assemble α} (h : Makes id K foreign action good) :
    Makes Progress.assembly K foreign (assemble action) good := by
  intro progress result after hrun hmade
  unfold assemble at hrun
  cases hact : action progress.assembly with
  | ok value assembly =>
      rw [hact] at hrun
      cases hrun
      exact h _ _ _ hact hmade
  | error fault assembly =>
      rw [hact] at hrun
      cases hrun

/-- A new identity is in the collection. -/
theorem makes_freshId : Makes Progress.assembly K foreign freshId K := by
  rintro progress _ _ ⟨⟩ hmade
  exact ⟨hmade.taken, .of_same rfl (Nat.le_succ _), hmade.store.fresh _ (Nat.le_refl _)⟩

theorem makes_newBlock (line : Int) {nodes : List Draft} (props : BlockProps)
    (h : ∀ node ∈ nodes, node.MadeOf K) :
    Makes Progress.assembly K foreign (newBlock line nodes props)
      fun block => (ofBlock block).MadeOf K :=
  makes_freshId.bind fun _ hid => makes_pure (madeOf_ofBlock.mpr ⟨hid, h⟩)

/-- A new node is made of itself and its parts. -/
theorem makes_newNode (line : Int) {kind : Kind BlockId} {blocks : List (Block BlockId Draft)}
    {code : Option Draft}
    (hkind : ∀ own children, (Node.make own line kind children).id? = own)
    (hcode : ∀ node ∈ code, node.MadeOf K) (hblocks : ∀ block ∈ blocks, (ofBlock block).MadeOf K) :
    Makes Progress.assembly K foreign (newNode line kind blocks code) (Node.MadeOf K) := by
  refine makes_freshId.bind fun id hid => makes_pure (madeOf_make.mpr ⟨fun other hother => ?_, ?_⟩)
  · rw [hkind] at hother
    exact Option.some.inj hother ▸ hid
  · refine List.forall_mem_append.mpr ⟨fun node hnode => ?_, List.forall_mem_map.mpr hblocks⟩
    exact hcode node (Option.mem_toList.mp hnode)

theorem makes_newLeaf (line : Int) {kind : Kind BlockId}
    (hkind : ∀ own children, (Node.make own line kind children).id? = own) :
    Makes Progress.assembly K foreign (newNode line kind) (Node.MadeOf K) :=
  makes_newNode line hkind nofun nofun

/-- A new node around a block. -/
theorem makes_newNode_block (line : Int) {kind : Kind BlockId} {block : Block BlockId Draft}
    (hkind : ∀ own children, (Node.make own line kind children).id? = own)
    (h : (ofBlock block).MadeOf K) :
    Makes Progress.assembly K foreign (newNode line kind [block]) (Node.MadeOf K) :=
  makes_newNode line hkind nofun (List.forall_mem_singleton.mpr h)

end Parse

end Stencil
