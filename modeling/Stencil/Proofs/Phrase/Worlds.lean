import Stencil.Proofs.Phrase.Basic
import Stencil.Proofs.Registry.Copying

/-! # Worlds — two evaluations under different names

    Two evaluations may go on side by side in states that are the same but for
    the identities of nodes and the numbers of templates.  A world says how the
    ones of the first state are renamed for the second.  It grows with every
    identity that is given away and with every snapshot; what was related stays
    related (`World.Relates.mono`). -/

namespace Stencil

/-- How the identities that were given away, and the numbers of templates, are renamed. -/
structure World where
  names : Renaming
  /-- The next identity of the first state. -/
  next : BlockId
  fits : names.Fits next

/-- A later world knows more identities, and renames the known ones as before. -/
structure World.Before (world later : World) : Prop where
  next : world.next ≤ later.next
  shift : later.names.shift = world.names.shift
  ids : ∀ id < world.next, later.names.ids id = world.names.ids id

instance : LE World := ⟨World.Before⟩

/-- A value of the first state, and the same under the names of the second. -/
structure World.Relates {α : Type} [Renames α] (world : World) (value other : α) : Prop where
  supported : Supported world.next value
  renamed : other = rename world.names value

/-- The states of what templates share. -/
structure World.Shares (world : World) (assembly other : Assembly) : Prop where
  next : assembly.store.next = world.next
  renamed : other.store.next = world.names.ids world.next
  current : world.Relates assembly.store.current other.store.current
  registry : world.Relates assembly.registry other.registry
  mixins : world.Relates assembly.mixins other.mixins
  templates : other.templates = assembly.templates + world.names.shift

/-- The states of two evaluations. -/
structure World.Sites (world : World) (site other : Site) : Prop where
  layout : other.layout = site.layout
  assembly : world.Shares site.assembly other.assembly

namespace World

variable {α β : Type} [Renames α] [Renames β] {world later last : World}

theorem le_refl (world : World) : world ≤ world := ⟨Nat.le_refl _, rfl, fun _ _ => rfl⟩

theorem le_trans (h : world ≤ later) (hlast : later ≤ last) : world ≤ last :=
  ⟨Nat.le_trans h.next hlast.next, hlast.shift.trans h.shift, fun id hid =>
    (hlast.ids id (Nat.lt_of_lt_of_le hid h.next)).trans (h.ids id hid)⟩

/-- The world when identities of both states were given away. -/
def given (world : World) (count : Nat) : World :=
  { world with next := world.next + count, fits := world.fits.later count }

theorem le_given (world : World) (count : Nat) : world ≤ world.given count :=
  ⟨Nat.le_add_right .., rfl, fun _ _ => rfl⟩

/-- The world when the named blocks of both states were copied. -/
def copied (world : World) : World where
  names := world.names.copying world.next world.fits
  next := world.next + world.next
  fits := Renaming.fits_copying world.fits

theorem le_copied (world : World) : world ≤ world.copied :=
  ⟨Nat.le_add_right .., rfl, fun _ hid => Renaming.copying_old world.fits hid⟩

/-! ## Related values -/

section Relates

variable {value value' : α} {other other' : β}

theorem Relates.mono (h : world.Relates value value') (hle : world ≤ later) :
    later.Relates value value' :=
  ⟨h.supported.mono hle.next, h.renamed.trans (h.supported _ _ hle.shift fun id hid =>
    hle.ids id hid).symm⟩

/-- What is done with a value in a way that goes with renaming. -/
theorem Relates.map (h : world.Relates value value') (f : α → β)
    (hf : ∀ σ value, f (rename σ value) = rename σ (f value)) :
    world.Relates (f value) (f value') := by
  refine ⟨fun σ τ hshift hsame => ?_, ?_⟩
  · rw [← hf, ← hf, h.supported σ τ hshift hsame]
  · rw [h.renamed, hf]

theorem Relates.pair (h : world.Relates value value') (hother : world.Relates other other') :
    world.Relates (value, other) (value', other') :=
  ⟨fun σ τ hshift hsame => Prod.ext (h.supported σ τ hshift hsame)
    (hother.supported σ τ hshift hsame), Prod.ext h.renamed hother.renamed⟩

/-- What is done with two values. -/
theorem Relates.map₂ {γ : Type} [Renames γ] (h : world.Relates value value')
    (hother : world.Relates other other') (f : α → β → γ)
    (hf : ∀ σ value other, f (rename σ value) (rename σ other) = rename σ (f value other)) :
    world.Relates (f value other) (f value' other') :=
  (h.pair hother).map (fun pair => f pair.1 pair.2) fun σ pair => hf σ pair.1 pair.2

/-- A value without identities in it. -/
theorem relates_of_fixed (h : ∀ σ, rename σ value = value) : world.Relates value value :=
  ⟨fun σ τ _ _ => (h σ).trans (h τ).symm, (h _).symm⟩

theorem relates_nil : world.Relates ([] : List α) [] := relates_of_fixed fun _ => rfl

theorem Relates.append {values values' more more' : List α} (h : world.Relates values values')
    (hmore : world.Relates more more') : world.Relates (values ++ more) (values' ++ more') :=
  h.map₂ hmore (· ++ ·) fun _ _ _ => List.map_append.symm

theorem Relates.singleton (h : world.Relates value value') : world.Relates [value] [value'] :=
  h.map (fun value => [value]) fun _ _ => rfl

end Relates

end World

/-! ## Evaluations side by side -/

/-- How two evaluations end in related states: with related results in a later world, or both with
    none.  Unless they are held to be `strict`, the second one may be refused what the first one
    is not. -/
inductive World.Ends {α : Type} [Renames α] (strict : Prop) (world : World) :
    Option (α × Site) → Option (α × Site) → Prop where
  | done {later : World} {result other : α} {site site' : Site} (hle : world ≤ later)
      (hresult : later.Relates result other) (hsites : later.Sites site site') :
      Ends strict world (some (result, site)) (some (other, site'))
  | failed : Ends strict world none none
  | refused {outcome : Option (α × Site)} (h : ¬ strict) : Ends strict world outcome none

theorem World.Ends.earlier {α : Type} [Renames α] {strict : Prop} {world later : World}
    {outcome outcome' : Option (α × Site)} (h : later.Ends strict outcome outcome')
    (hle : world ≤ later) : world.Ends strict outcome outcome' := by
  cases h with
  | failed => exact .failed
  | refused hstrict => exact .refused hstrict
  | done hafter hresult hsites => exact .done (World.le_trans hle hafter) hresult hsites

namespace Evaluate

variable {α β : Type} [Renames α] [Renames β] {strict : Prop} {world : World}

/-- An evaluation and its counterpart in a related state. -/
def Follows (strict : Prop) (world : World) (evaluate other : Evaluate α) : Prop :=
  ∀ site site', world.Sites site site' → world.Ends strict (evaluate site) (other site')

section Rules

variable {evaluate other : Evaluate α} {next next' : α → Evaluate β}

theorem follows_pure {result result' : α} (h : world.Relates result result') :
    Follows strict world (pure result) (pure result') :=
  fun _ _ hsites => .done world.le_refl h hsites

theorem follows_failure : Follows strict world (failure : Evaluate α) failure :=
  fun _ _ _ => .failed

theorem follows_refused (h : ¬ strict) : Follows strict world evaluate failure :=
  fun _ _ _ => .refused h

theorem Follows.bind (h : Follows strict world evaluate other)
    (hnext : ∀ later, world ≤ later → ∀ result result', later.Relates result result' →
      Follows strict later (next result) (next' result')) :
    Follows strict world (evaluate >>= next) (other >>= next') := by
  intro site site' hsites
  rw [bind_apply, bind_apply]
  have hfirst := h site site' hsites
  generalize evaluate site = first at hfirst
  generalize other site' = second at hfirst
  cases hfirst with
  | failed => exact .failed
  | refused hstrict => exact .refused hstrict
  | done hle hresult hafter => exact (hnext _ hle _ _ hresult _ _ hafter).earlier hle

end Rules

end Evaluate

end Stencil
