import Stencil.Grammar.Statement

/-! # What a reader ensures — the shared state before and after

    `Gives` follows a reader over tokens that are known.  Here the tokens do not
    matter, only what a successful run does to the state that the templates
    share.  `Quiet reader` says that it leaves the store, the named blocks, the
    mixins and the number of templates as they were.  `Ensures pre reader post` says that
    no template is forgotten, and that `pre` leads to `post` when none was
    composed on the way: a reader that includes a template ensures everything,
    since its runs are not spoken about. -/

namespace Stencil

/-- The store, the named blocks, the mixins and the number of templates are the same. -/
structure Assembly.Same (before after : Assembly) : Prop where
  store : after.store = before.store
  registry : after.registry = before.registry
  mixins : after.mixins = before.mixins
  templates : after.templates = before.templates

theorem Assembly.Same.refl (assembly : Assembly) : assembly.Same assembly := ⟨rfl, rfl, rfl, rfl⟩

theorem Assembly.Same.trans {first middle last : Assembly} (h : first.Same middle)
    (hlast : middle.Same last) : first.Same last where
  store := hlast.store.trans h.store
  registry := hlast.registry.trans h.registry
  mixins := hlast.mixins.trans h.mixins
  templates := hlast.templates.trans h.templates

namespace Parse

variable {α β : Type} {template : Template}

/-- A joined run is a run of the first action and one of the action that goes on. -/
theorem bind_eq_ok {σ : Type} {action : EStateM Fault σ α} {next : α → EStateM Fault σ β}
    {state after : σ} {result : β} (h : (action >>= next) state = .ok result after) :
    ∃ first middle, action state = .ok first middle ∧ next first middle = .ok result after := by
  replace h : EStateM.bind action next state = .ok result after := h
  unfold EStateM.bind at h
  cases hfirst : action state with
  | ok first middle =>
      rw [hfirst] at h
      exact ⟨first, middle, rfl, h⟩
  | error fault middle =>
      rw [hfirst] at h
      cases h

/-- What an action gives and the state that it leaves, if it succeeds. -/
def resultAfter? {σ : Type} : EStateM.Result Fault σ α → Option (α × σ)
  | .ok result after => some (result, after)
  | .error _ _ => none

theorem resultAfter?_eq_some {σ : Type} {outcome : EStateM.Result Fault σ α} {result : α}
    {after : σ} (h : resultAfter? outcome = some (result, after)) : outcome = .ok result after := by
  cases outcome with
  | ok other last =>
      cases h
      rfl
  | error fault last => cases h

/-! ## Quiet readers -/

/-- A reader whose successful runs leave the store, the named blocks, the mixins and the number of
    templates as they were. -/
def Quiet (reader : Parse α) : Prop :=
  ∀ progress result after, reader progress = .ok result after →
    progress.assembly.Same after.assembly

theorem quiet_pure (result : α) : Quiet (pure result : Parse α) := by
  rintro progress _ _ ⟨⟩
  exact .refl _

theorem Quiet.bind {reader : Parse α} {next : α → Parse β} (h : Quiet reader)
    (hnext : ∀ result, Quiet (next result)) : Quiet (reader >>= next) := by
  intro progress result after hrun
  obtain ⟨first, middle, hfirst, hrest⟩ := bind_eq_ok hrun
  exact (h _ _ _ hfirst).trans (hnext _ _ _ _ hrest)

theorem Quiet.ite {condition : Prop} [Decidable condition] {reader other : Parse α}
    (h : Quiet reader) (hother : Quiet other) : Quiet (if condition then reader else other) := by
  split
  · exact h
  · exact hother

theorem Quiet.discard {reader : Parse α} (h : Quiet reader) : Quiet (discard reader) := by
  intro progress result after hrun
  replace hrun : EStateM.map (fun _ => ()) reader progress = .ok result after := hrun
  unfold EStateM.map at hrun
  cases hread : reader progress with
  | ok first middle =>
      rw [hread] at hrun
      cases hrun
      exact h _ _ _ hread
  | error fault middle =>
      rw [hread] at hrun
      cases hrun

/-- A reader without successful runs. -/
theorem quiet_fail (cause : Cause) (line : Int) : Quiet (fail template cause line : Parse α) := by
  rintro progress result after ⟨⟩

theorem quiet_throw (fault : Fault) : Quiet (throw fault : Parse α) := by
  rintro progress result after ⟨⟩

theorem quiet_get : Quiet (get : Parse Progress) := by
  rintro progress _ _ ⟨⟩
  exact .refl _

theorem quiet_modify {f : Progress → Progress}
    (h : ∀ progress : Progress, progress.assembly.Same (f progress).assembly) :
    Quiet (modify f : Parse PUnit) := by
  rintro progress _ _ ⟨⟩
  exact h progress

theorem quiet_onLexer (action : Lexer → Lexer.Outcome α) : Quiet (onLexer template action) := by
  intro progress result after hrun
  unfold onLexer at hrun
  cases hact : action progress.lexer with
  | mk outcome lexer =>
      rw [hact] at hrun
      cases outcome with
      | ok value =>
          cases hrun
          exact ⟨rfl, rfl, rfl, rfl⟩
      | error fault => cases hrun

theorem quiet_peekAt (offset : Nat) : Quiet (peekAt template offset) := quiet_onLexer _

theorem quiet_peek : Quiet (peek template) := quiet_peekAt 0

theorem quiet_advance : Quiet (advance template) := quiet_onLexer _

theorem quiet_drop : Quiet (discard (advance template)) := quiet_advance.discard

theorem quiet_isAt (kind : TokenKind) : Quiet (isAt template kind) :=
  quiet_peek.bind fun _ => quiet_pure _

theorem quiet_expect (kind : TokenKind) : Quiet (expect template kind) :=
  quiet_peek.bind fun _ => .ite quiet_advance (quiet_fail _ _)

theorem quiet_tokenBound : Quiet tokenBound := quiet_get.bind fun _ => quiet_pure _

theorem quiet_defer (tokens : List Token) : Quiet (defer tokens) :=
  quiet_modify fun _ => ⟨rfl, rfl, rfl, rfl⟩

theorem quiet_setMode (mode : Mode) : Quiet (setMode mode) :=
  quiet_modify fun _ => ⟨rfl, rfl, rfl, rfl⟩

theorem quiet_tell (channel message : String) : Quiet (tell channel message) :=
  quiet_modify fun _ => ⟨rfl, rfl, rfl, rfl⟩

theorem quiet_skip (count : Nat) : Quiet (skip template count) := by
  induction count with
  | zero => exact quiet_pure _
  | succ count ih => exact quiet_drop.bind fun _ => ih

theorem quiet_skipNewlinesWith (fuel : Nat) : Quiet (skipNewlinesWith template fuel) := by
  induction fuel with
  | zero => exact quiet_throw _
  | succ fuel ih =>
      exact (quiet_isAt _).bind fun _ => .ite (quiet_drop.bind fun _ => ih) (quiet_pure _)

theorem quiet_skipNewlines : Quiet (skipNewlines template) :=
  quiet_tokenBound.bind fun _ => quiet_skipNewlinesWith _

theorem quiet_newlinesFrom (fuel offset : Nat) : Quiet (newlinesFrom template fuel offset) := by
  induction fuel generalizing offset with
  | zero => exact quiet_throw _
  | succ fuel ih =>
      exact (quiet_peekAt _).bind fun _ => .ite (ih _) (quiet_pure _)

theorem quiet_readAttributesWith (fuel : Nat) (classes : List String) (element : Element) :
    Quiet (readAttributesWith template fuel classes element) := by
  induction fuel generalizing classes element with
  | zero => exact quiet_throw _
  | succ fuel ih =>
      refine quiet_peek.bind fun token => ?_
      split
      · exact quiet_drop.bind fun _ => ih _ _
      · exact quiet_drop.bind fun _ => ih _ _
      · exact quiet_drop.bind fun _ => ih _ _
      · exact quiet_pure _

theorem quiet_readAttributes (element : Element) : Quiet (readAttributes template element) :=
  quiet_tokenBound.bind fun _ => quiet_readAttributesWith _ _ _

theorem quiet_takeDot : Quiet (takeDot template) :=
  quiet_peek.bind fun _ => .ite (quiet_drop.bind fun _ => quiet_pure _) (quiet_pure _)

theorem quiet_checkCycle (path : String) (line : Int) : Quiet (checkCycle template path line) :=
  .ite (quiet_fail _ _) (quiet_pure _)

theorem quiet_load (path : String) (line : Int) : Quiet (load template path line) := by
  unfold load
  split
  · exact quiet_pure _
  · exact quiet_fail _ _

/-! ## Conditions before and after -/

/-- A condition on the store and the named blocks. -/
abbrev Condition := Store Draft → Registry Draft → Prop

/-- Successful runs of a reader forget no template, and lead from one condition to another when no
    template was composed on the way. -/
def Ensures (pre : Condition) (reader : Parse α) (post : α → Condition) : Prop :=
  ∀ progress result after, reader progress = .ok result after →
    progress.assembly.templates ≤ after.assembly.templates
      ∧ (after.assembly.templates = progress.assembly.templates →
        pre progress.assembly.store progress.assembly.registry →
          post result after.assembly.store after.assembly.registry)

variable {pre : Condition}

theorem ensures_pure {result : α} {post : α → Condition}
    (h : ∀ store registry, pre store registry → post result store registry) :
    Ensures pre (pure result) post := by
  rintro progress _ _ ⟨⟩
  exact ⟨Nat.le_refl _, fun _ => h _ _⟩

theorem Ensures.bind {reader : Parse α} {next : α → Parse β} {mid : α → Condition}
    {post : β → Condition} (h : Ensures pre reader mid)
    (hnext : ∀ result, Ensures (mid result) (next result) post) :
    Ensures pre (reader >>= next) post := by
  intro progress result after hrun
  obtain ⟨first, middle, hfirst, hrest⟩ := bind_eq_ok hrun
  obtain ⟨hle, hpost⟩ := h _ _ _ hfirst
  obtain ⟨hle', hpost'⟩ := hnext _ _ _ _ hrest
  refine ⟨Nat.le_trans hle hle', fun hsame hpre => ?_⟩
  exact hpost' (by omega) (hpost (by omega) hpre)

/-- A weaker condition before and a stronger one after. -/
theorem Ensures.imp {reader : Parse α} {strong : Condition} {post weak : α → Condition}
    (h : Ensures pre reader post)
    (hpre : ∀ store registry, strong store registry → pre store registry)
    (hpost : ∀ result store registry, post result store registry → weak result store registry) :
    Ensures strong reader weak := by
  intro progress result after hrun
  obtain ⟨hle, hposts⟩ := h _ _ _ hrun
  exact ⟨hle, fun hsame hstrong => hpost _ _ _ (hposts hsame (hpre _ _ hstrong))⟩

/-- A weaker condition before. -/
theorem Ensures.of_imp {reader : Parse α} {strong : Condition} {post : α → Condition}
    (hpre : ∀ store registry, strong store registry → pre store registry)
    (h : Ensures pre reader post) : Ensures strong reader post :=
  h.imp hpre fun _ _ _ => id

/-- A condition that never holds before a run need not be kept. -/
theorem Ensures.absurd {reader : Parse α} {post other : α → Condition}
    (h : Ensures pre reader post) : Ensures (fun _ _ => False) reader other := by
  intro progress result after hrun
  exact ⟨(h _ _ _ hrun).1, fun _ => False.elim⟩

theorem Quiet.ensures {reader : Parse α} (h : Quiet reader) :
    Ensures pre reader fun _ => pre := by
  intro progress result after hrun
  have hsame := h _ _ _ hrun
  refine ⟨Nat.le_of_eq hsame.templates.symm, fun _ hpre => ?_⟩
  rwa [hsame.store, hsame.registry]

/-- A quiet reader, and one that goes on with its result. -/
theorem Quiet.andThen {reader : Parse α} {next : α → Parse β} {post : β → Condition}
    (h : Quiet reader) (hnext : ∀ result, Ensures pre (next result) post) :
    Ensures pre (reader >>= next) post :=
  h.ensures.bind hnext

theorem Ensures.ite {condition : Prop} [Decidable condition] {reader other : Parse α}
    {post : α → Condition} (h : Ensures pre reader post) (hother : Ensures pre other post) :
    Ensures pre (if condition then reader else other) post := by
  split
  · exact h
  · exact hother

theorem ensures_fail (cause : Cause) (line : Int) {post : α → Condition} :
    Ensures pre (fail template cause line : Parse α) post := by
  rintro progress result after ⟨⟩

theorem ensures_throw (fault : Fault) {post : α → Condition} :
    Ensures pre (throw fault : Parse α) post := by
  rintro progress result after ⟨⟩

/-- A change that the condition does not tell. -/
theorem ensures_modifyAssembly {f : Assembly → Assembly}
    (h : ∀ assembly : Assembly, (f assembly).store = assembly.store
      ∧ (f assembly).registry = assembly.registry ∧ (f assembly).templates = assembly.templates) :
    Ensures pre (modifyAssembly f) fun _ => pre := by
  rintro progress _ _ ⟨⟩
  obtain ⟨hstore, hregistry, htemplates⟩ := h progress.assembly
  refine ⟨Nat.le_of_eq htemplates.symm, fun _ hpre => ?_⟩
  show pre (f progress.assembly).store (f progress.assembly).registry
  rwa [hstore, hregistry]

/-- An action on the shared state, run as a reader. -/
theorem ensures_assemble {action : Assemble α} {post : α → Condition}
    (h : ∀ assembly result after, action assembly = .ok result after →
      assembly.templates ≤ after.templates
        ∧ (after.templates = assembly.templates → pre assembly.store assembly.registry →
          post result after.store after.registry)) :
    Ensures pre (assemble action) post := by
  intro progress result after hrun
  unfold assemble at hrun
  cases hact : action progress.assembly with
  | ok value assembly =>
      rw [hact] at hrun
      cases hrun
      exact h _ _ _ hact
  | error fault assembly =>
      rw [hact] at hrun
      cases hrun

end Parse

end Stencil
