import Stencil.Proofs.Grammar.Ensures
import Stencil.Proofs.Registry.Snapshot

/-! # Confined actions — what a composition can touch

    `Assembly.Within K` says that whatever the templates of a composition share
    comes from a collection of blocks: the current states of its own blocks, the
    named blocks and the mixin definitions.  A confined action keeps it so, and
    touches no block outside of the collection; it may use the blocks that it is
    said to hold, and it is said which ones it makes.

    The rules are those of a triple: an action that goes on holds what was made
    before (`Confined.bind`). -/

namespace Stencil

open Registry

/-- What the templates of a composition share comes from a collection of blocks. -/
structure Assembly.Within (K : BlockId → Prop) (assembly : Assembly) : Prop where
  store : assembly.store.Within K
  registry : assembly.store.Known K assembly.registry.mentioned
  mixins : assembly.store.Known K (assembly.mixins.values.flatMap blockIds)

/-- A change of what templates share that touches a collection of blocks only. -/
structure Assembly.Keeps (K : BlockId → Prop) (assembly after : Assembly) : Prop where
  changes : assembly.store.Changes K after.store
  within : after.Within K

variable {σ α β : Type} {K : BlockId → Prop}

theorem Assembly.Keeps.trans {assembly middle after : Assembly} (h : assembly.Keeps K middle)
    (hlast : middle.Keeps K after) : assembly.Keeps K after :=
  ⟨h.changes.trans hlast.changes, hlast.within⟩

/-- When the blocks held are known, successful runs stay within the collection, and make blocks
    from it. -/
def Confined (shared : σ → Assembly) (K : BlockId → Prop) (held : List BlockId)
    (action : EStateM Fault σ α) (made : α → List BlockId) : Prop :=
  ∀ state result after, action state = .ok result after → (shared state).Within K →
    (shared state).store.Known K held →
      (shared state).Keeps K (shared after) ∧ (shared after).store.Known K (made result)

section Rules

variable {shared : σ → Assembly} {held more : List BlockId} {action : EStateM Fault σ α}
  {m made : α → List BlockId}

theorem confined_pure {result : α} (h : made result ⊆ held) :
    Confined shared K held (pure result) made := by
  rintro state _ _ ⟨⟩ hwithin hheld
  exact ⟨⟨.refl _, hwithin⟩, hheld.subset h⟩

theorem Confined.bind {next : α → EStateM Fault σ β} {goal : β → List BlockId}
    (h : Confined shared K held action m)
    (hnext : ∀ result, Confined shared K (m result ++ held) (next result) goal) :
    Confined shared K held (action >>= next) goal := by
  intro state result after hrun hwithin hheld
  obtain ⟨first, middle, hfirst, hrest⟩ := Parse.bind_eq_ok hrun
  obtain ⟨hkeeps, hmade⟩ := h _ _ _ hfirst hwithin hheld
  have hboth := Store.known_append.mpr ⟨hmade, hheld.mono hkeeps.changes.next⟩
  obtain ⟨hlater, hgoal⟩ := hnext first _ _ _ hrest hkeeps.within hboth
  exact ⟨hkeeps.trans hlater, hgoal⟩

/-- More may be held, and less be told. -/
theorem Confined.imp (h : Confined shared K held action m) (hheld : held ⊆ more)
    (hmade : ∀ result, made result ⊆ m result) : Confined shared K more action made := by
  intro state result after hrun hwithin hmore
  obtain ⟨hkeeps, hm⟩ := h _ _ _ hrun hwithin (hmore.subset hheld)
  exact ⟨hkeeps, hm.subset (hmade result)⟩

theorem Confined.ite {condition : Prop} [Decidable condition] {other : EStateM Fault σ α}
    (h : Confined shared K held action made) (hother : Confined shared K held other made) :
    Confined shared K held (if condition then action else other) made := by
  split
  · exact h
  · exact hother

theorem confined_throw (fault : Fault) :
    Confined shared K held (throw fault : EStateM Fault σ α) made := by
  rintro state result after ⟨⟩

end Rules

namespace Parse

variable {template : Template} {held : List BlockId} {made : α → List BlockId}

/-- A quiet reader, and one that goes on with its result. -/
theorem Quiet.confine {reader : Parse α} {next : α → Parse β} {goal : β → List BlockId}
    (h : Quiet reader) (hnext : ∀ result, Confined Progress.assembly K held (next result) goal) :
    Confined Progress.assembly K held (reader >>= next) goal := by
  have hreader : Confined Progress.assembly K held reader fun _ => [] := by
    intro progress result after hrun hwithin _
    have hsame := h _ _ _ hrun
    refine ⟨⟨?_, ?_⟩, nofun⟩
    · rw [hsame.store]
      exact .refl _
    · constructor
      · rw [hsame.store]
        exact hwithin.store
      · rw [hsame.store, hsame.registry]
        exact hwithin.registry
      · rw [hsame.store, hsame.mixins]
        exact hwithin.mixins
  exact hreader.bind hnext

theorem confined_fail (cause : Cause) (line : Int) :
    Confined Progress.assembly K held (fail template cause line : Parse α) made := by
  rintro state result after ⟨⟩

/-- An action on what templates share, run as a reader. -/
theorem confined_assemble {action : Assemble α} (h : Confined id K held action made) :
    Confined Progress.assembly K held (assemble action) made := by
  intro progress result after hrun hwithin hheld
  unfold assemble at hrun
  cases hact : action progress.assembly with
  | ok value assembly =>
      rw [hact] at hrun
      cases hrun
      exact h _ _ _ hact hwithin hheld
  | error fault assembly =>
      rw [hact] at hrun
      cases hrun

/-- An identity is given away. -/
theorem confined_freshId : Confined Progress.assembly K held freshId fun id => [id] := by
  rintro progress _ _ ⟨⟩ hwithin -
  have hchanges := Store.changes_taken (K := K) progress.assembly.store
  refine ⟨⟨hchanges, hwithin.store.taken, hwithin.registry.mono hchanges.next,
    hwithin.mixins.mono hchanges.next⟩, ?_⟩
  exact List.forall_mem_singleton.mpr
    ⟨hwithin.store.fresh _ (Nat.le_refl _), Nat.lt_succ_self _⟩

theorem confined_newBlock (line : Int) (nodes : List Draft) (props : BlockProps)
    (h : nodes.flatMap blockIds ⊆ held) :
    Confined Progress.assembly K held (newBlock line nodes props)
      fun block => blockIds (.ofBlock block) :=
  confined_freshId.bind fun id => confined_pure (by
    rw [blockIds_ofBlock]
    exact List.cons_subset_cons id h)

/-- In a new node stand the blocks of its parts. -/
theorem confined_newNode (line : Int) {kind : Kind BlockId} {blocks : List (Block BlockId Draft)}
    {code : Option Draft}
    (hkind : ∀ own children, (Node.make own line kind children).id? = own)
    (h : (code.toList ++ blocks.map Node.ofBlock).flatMap blockIds ⊆ held) :
    Confined Progress.assembly K held (newNode line kind blocks code) blockIds :=
  confined_freshId.bind fun id => confined_pure (by
    rw [blockIds_make _ _ _ hkind]
    exact fun _ hmem => List.mem_append_right _ (h hmem))

theorem confined_newLeaf (line : Int) {kind : Kind BlockId}
    (hkind : ∀ own children, (Node.make own line kind children).id? = own) :
    Confined Progress.assembly K held (newNode line kind) blockIds :=
  confined_newNode line hkind (List.nil_subset _)

/-- A new node around a block that was made before. -/
theorem confined_newNode_block (line : Int) {kind : Kind BlockId} {block : Block BlockId Draft}
    (hkind : ∀ own children, (Node.make own line kind children).id? = own) :
    Confined Progress.assembly K (blockIds (.ofBlock block) ++ held) (newNode line kind [block])
      blockIds := by
  refine confined_newNode line hkind ?_
  rw [Option.toList_none, List.nil_append, List.map_singleton, List.flatMap_singleton]
  exact List.subset_append_left _ _

end Parse

end Stencil
