import Stencil.Proofs.Phrase.Following

/-! # Neutral statements

    A statement is neutral if no named block, no mixin definition, no include and
    no extends stands in it, at any depth.  All it takes from what the templates
    share are identities for its nodes (`idle_evaluate`).  Where nothing is done
    with the nodes, such statements may be left out (`follows_definitions`): what
    comes after them goes on under other names.

    A statement in which no layout is named does not depend on whether one was
    noted (`blind_evaluate`). -/

namespace Stencil

open Evaluate

/-! ## What holds at any depth -/

/-- A construct that defines nothing and names no other template. -/
def Construct.neutral : Construct → Bool
  | node _ | body _ | rawBody | element _ _ => true
  | _ => false

/-- A construct that names no layout. -/
def Construct.layoutless : Construct → Bool
  | «extends» _ => false
  | _ => true

namespace Phrase

mutual

/-- All constructs in a phrase, at any depth, pass a test. -/
def every (test : Construct → Bool) : Phrase → Bool
  | make construct parts => test construct && everyOf test parts

/-- All constructs in some phrases, at any depth, pass a test. -/
def everyOf (test : Construct → Bool) : List Phrase → Bool
  | [] => true
  | phrase :: phrases => every test phrase && everyOf test phrases

end

variable {test : Construct → Bool} {construct : Construct} {parts phrases : List Phrase}

theorem everyOf_iff : everyOf test phrases = true ↔ ∀ phrase ∈ phrases, every test phrase := by
  induction phrases with
  | nil => simp [everyOf]
  | cons phrase phrases ih => rw [everyOf, Bool.and_eq_true, ih, List.forall_mem_cons]

theorem every_make : every test (make construct parts) = true
    ↔ test construct ∧ ∀ part ∈ parts, every test part := by
  rw [every, Bool.and_eq_true, everyOf_iff]

/-- No named block, mixin definition, include or extends stands in a phrase. -/
def neutral : Phrase → Bool := every Construct.neutral

/-- No extends stands in a phrase. -/
def layoutless : Phrase → Bool := every Construct.layoutless

/-- The phrases that are not neutral. -/
def definitions (phrases : List Phrase) : List Phrase :=
  phrases.filter fun phrase => !phrase.neutral

theorem definitions_append (phrases more : List Phrase) :
    definitions (phrases ++ more) = definitions phrases ++ definitions more :=
  List.filter_append ..

theorem definitions_eq_nil (h : ∀ phrase ∈ phrases, phrase.neutral) : definitions phrases = [] :=
  List.filter_eq_nil_iff.mpr fun phrase hphrase => by simp [h phrase hphrase]

/-- Evaluates phrases for what they change. -/
def run (template : Template) (phrases : List Phrase) : Evaluate Unit := do
  let _ ← evaluateAll template phrases

theorem run_apply (template : Template) (phrases : List Phrase) (site : Site) :
    run template phrases site
      = (evaluateAll template phrases site).map fun outcome => ((), outcome.2) := by
  rw [run, bind_apply]
  cases evaluateAll template phrases site <;> rfl

theorem run_nil (template : Template) : run template [] = pure () := by
  rw [run, evaluateAll_nil, pure_bind]

theorem run_cons (template : Template) (phrase : Phrase) (phrases : List Phrase) :
    run template (phrase :: phrases) = (do
      let _ ← evaluate template phrase
      run template phrases) := by
  simp only [run, evaluateAll_cons, bind_assoc, pure_bind]

theorem run_append (template : Template) (phrases more : List Phrase) :
    run template (phrases ++ more) = (do
      run template phrases
      run template more) := by
  simp only [run, evaluateAll_append, bind_assoc, pure_bind]

end Phrase

/-! ## Giving away identities -/

/-- The site when some more identities were given away. -/
def Site.skipping (count : Nat) (site : Site) : Site :=
  let assembly := site.assembly
  { site with
    assembly := { assembly with
      store := { assembly.store with next := assembly.store.next + count } } }

theorem Site.skipping_skipping (count more : Nat) (site : Site) :
    (site.skipping count).skipping more = site.skipping (count + more) := by
  simp only [skipping, Nat.add_assoc]

namespace Evaluate

variable {α β : Type}

/-- An evaluation that succeeds, and does no more than give away identities. -/
def Idle (evaluate : Evaluate α) : Prop :=
  ∀ site, ∃ result count, evaluate site = some (result, site.skipping count)

theorem idle_pure {result : α} : Idle (pure result) := fun _ => ⟨result, 0, rfl⟩

theorem idle_fresh : Idle fresh := fun _ => ⟨_, 1, rfl⟩

theorem Idle.bind {evaluate : Evaluate α} {next : α → Evaluate β} (h : Idle evaluate)
    (hnext : ∀ result, Idle (next result)) : Idle (evaluate >>= next) := by
  intro site
  obtain ⟨result, count, hrun⟩ := h site
  obtain ⟨last, more, hlast⟩ := hnext result (site.skipping count)
  refine ⟨last, count + more, ?_⟩
  rw [bind_apply, hrun, ← Site.skipping_skipping]
  exact hlast

theorem idle_newBlock {nodes : List Draft} {props : BlockProps} : Idle (newBlock nodes props) :=
  idle_fresh.bind fun _ => idle_pure

theorem idle_newNode {kind : Kind BlockId} {children : List Draft} :
    Idle (newNode kind children) :=
  idle_fresh.bind fun _ => idle_pure

theorem idle_closeElement {role : Role} {opened : Parse.OpenElement} :
    Idle (Construct.closeElement role opened) := by
  cases role <;> exact idle_newNode

theorem idle_evaluateAll {template : Template} {phrases : List Phrase}
    (h : ∀ phrase ∈ phrases, Idle (phrase.evaluate template)) :
    Idle (Phrase.evaluateAll template phrases) := by
  induction phrases with
  | nil =>
      rw [Phrase.evaluateAll_nil]
      exact idle_pure
  | cons phrase phrases ih =>
      rw [Phrase.evaluateAll_cons]
      obtain ⟨hphrase, hphrases⟩ := List.forall_mem_cons.mp h
      exact hphrase.bind fun _ => (ih hphrases).bind fun _ => idle_pure

/-- A neutral phrase gives away identities, and that is all. -/
theorem idle_evaluate {template : Template} (phrase : Phrase) :
    phrase.neutral → Idle (phrase.evaluate template) := by
  induction phrase using Phrase.induct with
  | h construct parts ih =>
      intro hneutral
      obtain ⟨hconstruct, hevery⟩ := Phrase.every_make.mp hneutral
      have hparts : Idle (Phrase.evaluateAll template parts) :=
        idle_evaluateAll fun part hpart => ih part hpart (hevery part hpart)
      rw [Phrase.evaluate_make]
      cases construct with
      | node kind => exact idle_pure.bind fun _ => hparts.bind fun _ => idle_newNode.bind fun _ =>
          idle_pure
      | body props => exact idle_pure.bind fun _ => hparts.bind fun _ => idle_newBlock.bind fun _ =>
          idle_pure
      | rawBody => exact idle_pure.bind fun _ => hparts.bind fun _ => idle_fresh.bind fun _ =>
          idle_pure
      | element head role =>
          -- what was begun is the body that the element is closed with
          simp only [Construct.begin, bind_assoc, pure_bind]
          exact idle_newBlock.bind fun _ => hparts.bind fun _ => idle_closeElement.bind fun _ =>
            idle_pure
      | _ => cases hconstruct

end Evaluate

/-! ## Leaving out neutral statements -/

namespace World

/-- The world when identities of the second state alone were given away. -/
def ahead (world : World) (count : Nat) : World where
  names :=
    { ids := fun id => world.names.ids id + if id < world.next then 0 else count
      shift := world.names.shift
      injective := by
        have hlt : ∀ {id other}, id < world.next → ¬ other < world.next →
            world.names.ids id < world.names.ids other := by
          intro id other hid hother
          obtain ⟨more, rfl⟩ := Nat.exists_eq_add_of_le (Nat.le_of_not_lt hother)
          rw [world.fits more]
          exact Nat.lt_add_right more (world.fits.lt hid)
        intro id other hsame
        dsimp only at hsame
        split at hsame <;> split at hsame
        · exact world.names.injective hsame
        · next hid hother => exact absurd hsame (Nat.ne_of_lt (Nat.lt_add_right _ (hlt hid hother)))
        · next hid hother =>
            exact absurd hsame.symm (Nat.ne_of_lt (Nat.lt_add_right _ (hlt hother hid)))
        · exact world.names.injective (Nat.add_right_cancel hsame) }
  next := world.next
  fits := by
    intro more
    dsimp only
    rw [if_neg (Nat.not_lt.mpr (Nat.le_add_right ..)), if_neg (Nat.lt_irrefl _), world.fits more,
      Nat.add_right_comm]

variable {world : World} {site site' : Site}

theorem le_ahead (world : World) (count : Nat) : world ≤ world.ahead count := by
  refine ⟨Nat.le_refl _, rfl, fun id hid => ?_⟩
  dsimp only [ahead]
  rw [if_pos hid, Nat.add_zero]

theorem Sites.ahead (h : world.Sites site site') (count : Nat) :
    (world.ahead count).Sites site (site'.skipping count) := by
  have hshares := h.assembly
  have hle := world.le_ahead count
  refine ⟨h.layout, ⟨hshares.next, ?_, hshares.current.mono hle, hshares.registry.mono hle,
    hshares.mixins.mono hle, hshares.templates⟩⟩
  show site'.assembly.store.next + count
    = world.names.ids world.next + if world.next < world.next then 0 else count
  rw [if_neg (Nat.lt_irrefl _), hshares.renamed]

end World

namespace Evaluate

variable {strict : Prop}

/-- An idle evaluation that only the second state goes through. -/
theorem follows_idle {α β : Type} [Renames β] {world : World} {idle : Evaluate α}
    {evaluate other : Evaluate β} (hidle : Idle idle)
    (h : ∀ later, world ≤ later → Follows strict later evaluate other) :
    Follows strict world evaluate (idle >>= fun _ => other) := by
  intro site site' hsites
  obtain ⟨result, count, hrun⟩ := hidle site'
  rw [bind_apply, hrun]
  have hle := world.le_ahead count
  exact (h _ hle _ _ (hsites.ahead count)).earlier hle

/-- Neutral statements may be left out. -/
theorem follows_definitions (phrases : List Phrase) : ∀ {world : World} {template other : Template},
    world.Templates strict template other →
      Follows strict world (Phrase.run template (Phrase.definitions phrases))
        (Phrase.run other phrases) := by
  induction phrases with
  | nil =>
      intro world template other _
      rw [Phrase.definitions, List.filter_nil, Phrase.run_nil, Phrase.run_nil]
      exact follows_pure (World.relates_of_fixed fun _ => rfl)
  | cons phrase phrases ih =>
      intro world template other h
      rw [Phrase.run_cons other]
      cases hneutral : phrase.neutral with
      | true =>
          have hout : Phrase.definitions (phrase :: phrases) = Phrase.definitions phrases :=
            List.filter_cons_of_neg (by simp [hneutral])
          rw [hout]
          exact follows_idle (idle_evaluate phrase hneutral) fun later hle => ih (h.mono hle)
      | false =>
          have hkept : Phrase.definitions (phrase :: phrases)
              = phrase :: Phrase.definitions phrases :=
            List.filter_cons_of_pos (by simp [hneutral])
          rw [hkept, Phrase.run_cons]
          exact (follows_evaluate phrase h).bind fun later hle _ _ _ => ih (h.mono hle)

end Evaluate

/-! ## Without a look at the layout -/

/-- The site with another layout. -/
def Site.noting (layout : Option Layout) (site : Site) : Site := { site with layout }

namespace Evaluate

variable {α β : Type}

/-- An evaluation that neither depends on the layout that is noted nor changes it. -/
def Blind (evaluate : Evaluate α) : Prop :=
  ∀ layout site, evaluate (site.noting layout)
    = (evaluate site).map fun outcome => (outcome.1, outcome.2.noting layout)

theorem Blind.layout {evaluate : Evaluate α} (h : Blind evaluate) {site after : Site} {result : α}
    (hrun : evaluate site = some (result, after)) : after.layout = site.layout := by
  have hsame := h site.layout site
  rw [show site.noting site.layout = site from rfl, hrun] at hsame
  exact congrArg (fun outcome => outcome.2.layout) (Option.some.inj hsame)

theorem blind_pure {result : α} : Blind (pure result) := fun _ _ => rfl

theorem blind_failure : Blind (failure : Evaluate α) := fun _ _ => rfl

theorem blind_fresh : Blind fresh := fun _ _ => rfl

theorem Blind.bind {evaluate : Evaluate α} {next : α → Evaluate β} (h : Blind evaluate)
    (hnext : ∀ result, Blind (next result)) : Blind (evaluate >>= next) := by
  intro layout site
  rw [bind_apply, bind_apply, h layout site]
  cases evaluate site with
  | none => rfl
  | some outcome => exact hnext outcome.1 layout outcome.2

theorem blind_plainly {erase : α → β} {action : Assemble α} : Blind (plainly erase action) := by
  intro layout site
  cases hrun : action site.assembly with
  | ok result after =>
      have hnoting : action (site.noting layout).assembly = .ok result after := hrun
      rw [plainly_of_ok hrun, plainly_of_ok hnoting]
      rfl
  | error fault after =>
      have hnoting : action (site.noting layout).assembly = .error fault after := hrun
      rw [plainly_of_error hrun, plainly_of_error hnoting]
      rfl

theorem blind_newBlock {nodes : List Draft} {props : BlockProps} : Blind (newBlock nodes props) :=
  blind_fresh.bind fun _ => blind_pure

theorem blind_newNode {kind : Kind BlockId} {children : List Draft} :
    Blind (newNode kind children) :=
  blind_fresh.bind fun _ => blind_pure

variable {template : Template}

theorem blind_loaded {path : String} : Blind (loaded template path) := by
  intro layout site
  unfold loaded
  cases template.config.activeLoader.load path <;> rfl

theorem blind_uncycled {path : String} : Blind (uncycled template path) := by
  unfold uncycled
  split
  · exact blind_failure
  · exact blind_pure

theorem blind_beginTemplate {path : String} : Blind (Construct.beginTemplate template path) := by
  have hroot : Blind (Construct.includedRoot template path) := blind_uncycled.bind fun _ =>
    blind_loaded.bind fun _ => blind_plainly.bind fun _ => blind_plainly
  exact hroot.bind fun _ => blind_plainly.bind fun _ => blind_pure

theorem blind_begin {construct : Construct} (h : construct.layoutless) :
    Blind (construct.begin template) := by
  cases construct with
  | element head role => exact blind_newBlock.bind fun _ => blind_pure
  | «include» target =>
      show Blind (Construct.beginInclude template target)
      unfold Construct.beginInclude
      split
      · exact blind_failure
      · dsimp only
        split
        · exact blind_beginTemplate
        · exact blind_loaded.bind fun _ => blind_pure
  | «extends» target => cases h
  | _ => exact blind_pure

theorem blind_finish {construct : Construct} {begun : Begun} {nodes : List Draft} :
    Blind (construct.finish template begun nodes) := by
  have hnode : ∀ {kind : Kind BlockId} {children : List Draft},
      Blind (do return [← newNode kind children]) := blind_newNode.bind fun _ => blind_pure
  cases construct with
  | node kind => exact hnode
  | body props => exact blind_newBlock.bind fun _ => blind_pure
  | rawBody => exact blind_fresh.bind fun _ => blind_pure
  | element head role =>
      cases begun with
      | element empty =>
          refine Blind.bind ?_ fun _ => blind_pure
          cases role <;> exact blind_newNode
      | _ => exact blind_failure
  | mixin name args =>
      have hentered : ∀ definition, Blind (Construct.enterMixin name definition) := fun _ _ _ => rfl
      exact blind_newNode.bind fun definition => (hentered definition).bind fun _ => blind_pure
  | named name mode =>
      have hdefined : ∀ content, Blind (Construct.defineNamed template name mode content) := by
        intro content
        unfold Construct.defineNamed
        exact blind_plainly
      dsimp only [Construct.finish]
      split
      · exact (hdefined _).bind fun _ => blind_pure
      · exact blind_failure
  | «include» target =>
      dsimp only [Construct.finish]
      split
      · exact blind_pure
      · exact blind_plainly.bind fun _ => blind_pure
      · exact hnode
      · exact blind_failure
  | «extends» target => exact hnode

theorem blind_evaluateAll {phrases : List Phrase}
    (h : ∀ phrase ∈ phrases, Blind (phrase.evaluate template)) :
    Blind (Phrase.evaluateAll template phrases) := by
  induction phrases with
  | nil =>
      rw [Phrase.evaluateAll_nil]
      exact blind_pure
  | cons phrase phrases ih =>
      rw [Phrase.evaluateAll_cons]
      obtain ⟨hphrase, hphrases⟩ := List.forall_mem_cons.mp h
      exact hphrase.bind fun _ => (ih hphrases).bind fun _ => blind_pure

/-- A phrase that names no layout is evaluated in the same way whether one is noted or not. -/
theorem blind_evaluate (phrase : Phrase) :
    phrase.layoutless → Blind (phrase.evaluate template) := by
  induction phrase using Phrase.induct with
  | h construct parts ih =>
      intro hlayoutless
      obtain ⟨hconstruct, hevery⟩ := Phrase.every_make.mp hlayoutless
      rw [Phrase.evaluate_make]
      exact (blind_begin hconstruct).bind fun _ => (blind_evaluateAll fun part hpart =>
        ih part hpart (hevery part hpart)).bind fun _ => blind_finish

theorem blind_run {phrases : List Phrase} (h : ∀ phrase ∈ phrases, phrase.layoutless) :
    Blind (Phrase.run template phrases) :=
  (blind_evaluateAll fun phrase hphrase => blind_evaluate phrase (h phrase hphrase)).bind fun _ =>
    blind_pure

end Evaluate

end Stencil
