import Stencil.Proofs.Composition.Blame
import Stencil.Proofs.Composition.Twins
import Stencil.Proofs.Grammar.Gapped
import Stencil.Proofs.Lexer.Alongside

/-! # Meetings — reading a shorthand with and without the name of the element

    A template is read in four runs: its text with a shorthand in it (`bare`), the
    text with the name of the element in front of the shorthand (`full`), the text
    with the shorthand again with another way to compose templates (`other`), and
    once more by readers that may give up at the shorthand (`probe`).

    In front of the shorthand the first two are side by side.  Where they come to
    it, they do the same from the next token on, as far as the fuel goes, or the
    first run takes the place into something else (`Meeting`); then the probe has
    done as the first run did.  That fuel was short is told from the run with the
    other way to compose, since a template that is composed may run out of fuel as
    well.

    `Meets` says this of the readers in four runs, and holds of joined readers if
    it holds of their parts. -/

namespace Stencil

open Lexer

/-- One of the four runs. -/
inductive Run where
  | bare
  | probe
  | other
  | full

/-- The fuel of a run: there may be more of it for the text with the name of the element. -/
def Run.fuel (fuel fuel' : Nat) : Run → Nat
  | full => fuel'
  | _ => fuel

/-- The template of a run. -/
def Template.inRun (template : Template) (composer : Composer) : Run → Template
  | .other => template.composing composer
  | _ => template

section Template

variable (template : Template) (composer : Composer) (run : Run)

theorem Template.inRun_filename : (template.inRun composer run).filename = template.filename := by
  cases run <;> rfl

theorem Template.inRun_config : (template.inRun composer run).config = template.config := by
  cases run <;> rfl

theorem Template.inRun_owner : (template.inRun composer run).owner = template.owner := by
  cases run <;> rfl

theorem Template.inRun_lineage : (template.inRun composer run).lineage = template.lineage := by
  cases run <;> rfl

end Template

namespace Parse

variable {α β : Type} {place : BareShorthand} {template : Template} {composer : Composer}

theorem onLexer_inRun (action : Lexer → Outcome α) (run : Run) :
    onLexer (template.inRun composer run) action = onLexer template action := by
  cases run <;> rfl

/-- The fuel ran out. -/
def Starved (outcome : EStateM.Result Fault Progress α) : Prop :=
  ∃ fault after, outcome = .error fault after ∧ fault.cause = .exhausted

/-- A run that ends beyond the place. -/
inductive Leaves (place : BareShorthand) : EStateM.Result Fault Progress α → Prop where
  | ok {result : α} {after : Progress} (past : Past place after.lexer) :
      Leaves place (.ok result after)
  | error {fault : Fault} {after : Progress}
      (suffix : after.lexer.input <:+ place.name ++ place.rest)
      (opens : fault.cause = .exhausted → ¬ Opens place after.lexer) :
      Leaves place (.error fault after)

/-- The run of the text ends beyond the place, and so does the probe. -/
structure Leaving (place : BareShorthand) (reader : Run → Parse α) (progress : Progress) :
    Prop where
  probe : reader .probe progress = reader .bare progress
  leaves : Leaves place (reader .bare progress)

/-- What comes of runs that were side by side. -/
inductive Meeting (place : BareShorthand)
    (probe other bare full : EStateM.Result Fault Progress α) : Prop where
  /-- The runs do the same, unless the fuel is short. -/
  | agrees (same : Starved other ∨ full = bare)
  /-- The runs are side by side again. -/
  | inStep {result : α} {after : Progress} {lexer : Lexer} (probe_eq : probe = bare)
      (bare_eq : bare = .ok result after) (full_eq : full = .ok result { after with lexer })
      (beside : Beside place after.lexer lexer)
  /-- Both stop for one fault. -/
  | stopped {fault : Fault} {after : Progress} {lexer : Lexer} (bare_eq : bare = .error fault after)
      (full_eq : full = .error fault { after with lexer })
  /-- The place is behind. -/
  | past (probe_eq : probe = bare) (leaves : Leaves place bare)

/-- The readers of the four runs meet at a shorthand, if they do not take it into something else. -/
structure Meets (place : BareShorthand) (reader : Run → Parse α) : Prop where
  answers : ∀ ⦃progress result after⦄, reader .bare progress = .ok result after →
    reader .other progress = .ok result after
  behind : ∀ progress, Starved (reader .other progress)
    ∨ reader .full progress = reader .bare progress
  past : ∀ ⦃progress⦄, Past place progress.lexer → Leaving place reader progress
  beside : ∀ ⦃progress lexer⦄, Beside place progress.lexer lexer →
    Meeting place (reader .probe progress) (reader .other progress) (reader .bare progress)
      (reader .full { progress with lexer })

/-! ## Rules -/

section Rules

variable {reader : Run → Parse α} {next : Run → α → Parse β} {progress : Progress}

theorem Starved.bind {reader : Parse α} {next : α → Parse β} (h : Starved (reader progress)) :
    Starved ((reader >>= next) progress) := by
  obtain ⟨fault, after, hrun, hcause⟩ := h
  exact ⟨fault, after, bind_eq_of_error hrun, hcause⟩

theorem Leaving.bind (h : Leaving place reader progress)
    (hnext : ∀ result after, reader .bare progress = .ok result after → Past place after.lexer →
      Leaving place (fun run => next run result) after) :
    Leaving place (fun run => reader run >>= next run) progress := by
  have hprobe := h.probe
  have hleaves := h.leaves
  cases hbare : reader .bare progress with
  | ok result after =>
      rw [hbare] at hprobe hleaves
      cases hleaves with
      | ok past =>
          obtain ⟨hprobe', hleaves'⟩ := hnext result after hbare past
          refine ⟨?_, ?_⟩
          · rw [bind_eq_of_ok hprobe, bind_eq_of_ok hbare]
            exact hprobe'
          · rw [bind_eq_of_ok hbare]
            exact hleaves'
  | error fault after =>
      rw [hbare] at hprobe hleaves
      cases hleaves with
      | error suffix opens =>
          refine ⟨?_, ?_⟩
          · rw [bind_eq_of_error hprobe, bind_eq_of_error hbare]
          · rw [bind_eq_of_error hbare]
            exact .error suffix opens

/-- Runs that meet, and go on. -/
theorem Meeting.bind (reader : Run → Parse α) {lexer : Lexer}
    (hnext : ∀ result, Meets place fun run => next run result)
    (hanswers : ∀ result after, reader .bare progress = .ok result after →
      reader .other progress = .ok result after)
    (h : Meeting place (reader .probe progress) (reader .other progress) (reader .bare progress)
      (reader .full { progress with lexer })) :
    Meeting place ((reader .probe >>= next .probe) progress)
      ((reader .other >>= next .other) progress) ((reader .bare >>= next .bare) progress)
      ((reader .full >>= next .full) { progress with lexer }) := by
  cases h with
  | agrees same =>
      refine .agrees (same.elim (fun hstarved => .inl hstarved.bind) fun hsame => ?_)
      cases hbare : reader .bare progress with
      | ok result after =>
          rw [hbare] at hsame
          rw [bind_eq_of_ok hsame, bind_eq_of_ok hbare, bind_eq_of_ok (hanswers _ _ hbare)]
          exact (hnext result).behind after
      | error fault after =>
          rw [hbare] at hsame
          rw [bind_eq_of_error hsame, bind_eq_of_error hbare]
          exact .inr rfl
  | inStep probe_eq bare_eq full_eq beside =>
      rw [bind_eq_of_ok (probe_eq.trans bare_eq), bind_eq_of_ok (hanswers _ _ bare_eq),
        bind_eq_of_ok bare_eq, bind_eq_of_ok full_eq]
      exact (hnext _).beside beside
  | stopped bare_eq full_eq =>
      exact .stopped (bind_eq_of_error bare_eq) (bind_eq_of_error full_eq)
  | past probe_eq leaves =>
      obtain ⟨hprobe, hleaves⟩ :=
        Leaving.bind ⟨probe_eq, leaves⟩ fun result after _ hpast => (hnext result).past hpast
      exact .past hprobe hleaves

theorem Meets.bind (h : Meets place reader)
    (hnext : ∀ result, Meets place fun run => next run result) :
    Meets place fun run => reader run >>= next run where
  answers := by
    intro progress last done hrun
    obtain ⟨result, after, hfirst, hrest⟩ := bind_eq_ok hrun
    exact (bind_eq_of_ok (h.answers hfirst)).trans ((hnext result).answers hrest)
  behind := by
    intro progress
    refine (h.behind progress).elim (fun hstarved => .inl hstarved.bind) fun hsame => ?_
    cases hbare : reader .bare progress with
    | ok result after =>
        rw [hbare] at hsame
        rw [bind_eq_of_ok hsame, bind_eq_of_ok hbare, bind_eq_of_ok (h.answers hbare)]
        exact (hnext result).behind after
    | error fault after =>
        rw [hbare] at hsame
        rw [bind_eq_of_error hsame, bind_eq_of_error hbare]
        exact .inr rfl
  past := fun _ hpast => (h.past hpast).bind fun result _ _ hpast => (hnext result).past hpast
  beside := fun _ _ hbeside =>
    .bind reader hnext (fun _ _ hbare => h.answers hbare) (h.beside hbeside)

theorem Meets.ite {condition : Prop} [Decidable condition] {reader' : Run → Parse α}
    (h : Meets place reader) (h' : Meets place reader') :
    Meets place fun run => if condition then reader run else reader' run := by
  split
  · exact h
  · exact h'

/-- Readers that have no fuel. -/
theorem meets_exhausted (hbare : reader .bare = throw ⟨.exhausted, {}⟩)
    (hprobe : reader .probe = throw ⟨.exhausted, {}⟩)
    (hother : reader .other = throw ⟨.exhausted, {}⟩) : Meets place reader where
  answers := by
    intro progress result after hrun
    rw [hbare] at hrun
    cases hrun
  behind := fun progress => .inl ⟨_, progress, by rw [hother]; rfl, rfl⟩
  past := by
    intro progress hpast
    refine ⟨by rw [hprobe, hbare], ?_⟩
    rw [hbare]
    exact .error hpast.suffix fun _ => hpast.not_opens
  beside := fun progress _ _ => .agrees (.inl ⟨_, progress, by rw [hother]; rfl, rfl⟩)

/-- An induction on the fuel of the runs. -/
theorem fuel_runs (P : (Run → Nat) → Prop) (zero : ∀ fuel', P (Run.fuel 0 fuel'))
    (succ : ∀ fuel fuel', P (Run.fuel fuel fuel') → P fun run => run.fuel fuel fuel' + 1) :
    ∀ fuel fuel', fuel ≤ fuel' → P (Run.fuel fuel fuel') := by
  intro fuel
  induction fuel with
  | zero => exact fun fuel' _ => zero fuel'
  | succ fuel ih =>
      intro fuel' hle
      obtain ⟨fuel', rfl⟩ := Nat.exists_eq_add_of_le' (Nat.lt_of_lt_of_le (Nat.succ_pos fuel) hle)
      have hstep := succ fuel fuel' (ih fuel' (Nat.le_of_succ_le_succ hle))
      rwa [show (fun run => Run.fuel fuel fuel' run + 1) = Run.fuel (fuel + 1) (fuel' + 1) from
        funext fun run => by cases run <;> rfl] at hstep

end Rules

/-! ## Readers that do not look at the tokens -/

/-- What a reader does that leaves the lexer as it is, and does not look at it. -/
inductive Mutely (reader : Parse α) (progress : Progress) (lexer : Lexer) : Prop where
  | ok {result : α} {after : Progress} (read : reader progress = .ok result after)
      (same : after.lexer = progress.lexer)
      (moved : reader { progress with lexer } = .ok result { after with lexer })
  | error {fault : Fault} {after : Progress} (read : reader progress = .error fault after)
      (same : after.lexer = progress.lexer)
      (moved : reader { progress with lexer } = .error fault { after with lexer })

/-- A reader that leaves the lexer as it is, and does not look at it. -/
def Mute (reader : Parse α) : Prop := ∀ progress lexer, Mutely reader progress lexer

section Mute

/-- A reader that does not look at the tokens meets itself, whatever templates are composed in the
    other run. -/
theorem Mute.meets_of_answers {reader other : Parse α} (h : Mute reader)
    (hother : ∀ progress result after, reader progress = .ok result after →
      other progress = .ok result after) :
    Meets place fun | .other => other | _ => reader where
  answers := hother
  behind := fun _ => .inr rfl
  past := by
    intro progress hpast
    refine ⟨rfl, ?_⟩
    dsimp only
    cases h progress progress.lexer with
    | ok read same =>
        rw [read]
        exact .ok (same ▸ hpast)
    | error read same =>
        rw [read]
        refine .error (same ▸ hpast.suffix) fun _ => ?_
        rw [same]
        exact hpast.not_opens
  beside := by
    intro progress lexer hbeside
    cases h progress lexer with
    | ok read same moved => exact .inStep rfl read moved (same ▸ hbeside)
    | error read same moved => exact .stopped read moved

theorem Mute.meets {reader : Parse α} (h : Mute reader) : Meets place fun _ => reader :=
  have hmeets : Meets place fun | .other => reader | _ => reader :=
    h.meets_of_answers fun _ _ _ hrun => hrun
  { answers := hmeets.answers
    behind := hmeets.behind
    past := fun _ hpast => ⟨(hmeets.past hpast).probe, (hmeets.past hpast).leaves⟩
    beside := fun _ _ hbeside => hmeets.beside hbeside }

theorem meets_pure {result : α} : Meets place fun _ => (pure result : Parse α) :=
  Mute.meets fun _ _ => .ok rfl rfl rfl

theorem meets_fail {cause : Cause} {line : Int} :
    Meets place fun run => (fail (template.inRun composer run) cause line : Parse α) := by
  have hfail : Mute (fail template cause line : Parse α) := fun _ _ => .error rfl rfl rfl
  unfold fail at hfail ⊢
  simp only [Template.inRun_filename]
  exact hfail.meets

/-- Nothing is done after a fault. -/
theorem meets_fail_bind {cause : Cause} {line : Int} {next : Run → α → Parse β} :
    Meets place fun run => fail (template.inRun composer run) cause line >>= next run := by
  have hfail : ∀ (run : Run) (next : α → Parse β),
      fail (template.inRun composer run) cause line >>= next
        = fail (template.inRun composer run) cause line := fun _ _ => rfl
  simp only [hfail]
  exact meets_fail

theorem mute_assemble {action : Assemble α} : Mute (assemble action) := by
  intro progress lexer
  cases haction : action progress.assembly with
  | ok result assembly =>
      have hrun : ∀ lexer, assemble action { progress with lexer }
          = .ok result { progress with lexer, assembly } := fun _ => by
        unfold assemble
        rw [haction]
      exact .ok (hrun _) rfl (hrun _)
  | error fault assembly =>
      have hrun : ∀ lexer, assemble action { progress with lexer }
          = .error fault { progress with lexer, assembly } := fun _ => by
        unfold assemble
        rw [haction]
      exact .error (hrun _) rfl (hrun _)

theorem meets_assemble {action : Assemble α} : Meets place fun _ => assemble action :=
  mute_assemble.meets

/-- Another template is composed alike where the other way to compose succeeds with it. -/
theorem meets_composeInclude (hmends : Mends composer template.compose) {child : Source} :
    Meets place fun run => assemble (composeInclude (template.inRun composer run) child) := by
  have hruns : (fun run => assemble (composeInclude (template.inRun composer run) child))
      = fun
        | .other => assemble (composeInclude (template.composing composer) child)
        | _ => assemble (composeInclude template child) := by
    funext run
    cases run <;> rfl
  rw [hruns]
  refine mute_assemble.meets_of_answers fun progress composed after hrun => ?_
  cases hcompose : template.compose child progress.assembly.copied with
  | ok found final =>
      cases (composeInclude_of_ok hcompose).symm.trans hrun
      exact composeInclude_of_ok (hmends _ _ _ _ hcompose)
  | error fault final => cases (composeInclude_of_error hcompose).symm.trans hrun

theorem meets_modifyAssembly {f : Assembly → Assembly} :
    Meets place fun _ => modifyAssembly f :=
  Mute.meets fun _ _ => .ok rfl rfl rfl

theorem meets_tell {channel message : String} : Meets place fun _ => tell channel message :=
  meets_modifyAssembly

theorem meets_newNode {line : Int} {kind : Kind BlockId} {blocks : List (Block BlockId Draft)}
    {code : Option Draft} : Meets place fun _ => newNode line kind blocks code :=
  Mute.meets fun _ _ => .ok rfl rfl rfl

theorem meets_newBlock {line : Int} {nodes : List Draft} {props : BlockProps} :
    Meets place fun _ => newBlock line nodes props :=
  Mute.meets fun _ _ => .ok rfl rfl rfl

/-- A change of the state that leaves the lexer alone and does not look at it. -/
theorem meets_modify {f : Progress → Progress}
    (h : ∀ (progress : Progress) (lexer : Lexer),
      f { progress with lexer } = { f progress with lexer }) :
    Meets place fun _ => (modify f : Parse PUnit) := by
  refine Mute.meets fun progress lexer => ?_
  have hsame : f progress = { f progress with lexer := progress.lexer } :=
    h progress progress.lexer
  have hlexer : (f progress).lexer = progress.lexer := by rw [hsame]
  exact .ok rfl hlexer (congrArg (EStateM.Result.ok PUnit.unit) (h progress lexer))

end Mute

/-! ## What is read of the state -/

section State

theorem meets_get {next : Run → Progress → Parse α}
    (h : ∀ progress, Meets place fun run => next run progress)
    (hfull : ∀ (progress : Progress) (lexer : Lexer),
      next .full { progress with lexer } = next .full progress) :
    Meets place fun run => get >>= next run where
  answers := fun progress _ _ hrun => (h progress).answers hrun
  behind := fun progress => (h progress).behind progress
  past := fun progress hpast => ⟨((h progress).past hpast).probe, ((h progress).past hpast).leaves⟩
  beside := by
    intro progress lexer hbeside
    have hmeeting := (h progress).beside hbeside
    rw [← hfull progress lexer] at hmeeting
    exact hmeeting

/-- A loop with as much fuel as there are tokens. -/
theorem meets_bounded {next : Run → Nat → Parse α}
    (h : ∀ fuel fuel', fuel ≤ fuel' → Meets place fun run => next run (run.fuel fuel fuel')) :
    Meets place fun run => tokenBound >>= next run where
  answers := fun _ _ _ hrun => (h _ _ (Nat.le_refl _)).answers hrun
  behind := fun progress => (h _ _ (Nat.le_refl _)).behind progress
  past := fun _ hpast =>
    ⟨((h _ _ (Nat.le_refl _)).past hpast).probe, ((h _ _ (Nat.le_refl _)).past hpast).leaves⟩
  beside := fun _ _ hbeside =>
    (h _ _ (Nat.succ_le_succ hbeside.potential_le)).beside hbeside

end State

/-! ## Tokens -/

section Tokens

variable {action : Lexer → Outcome α} {progress : Progress} {lexer : Lexer}

theorem lockRecords_congr {before before' after after' : Lexer} (h : before.lock = before'.lock)
    (h' : after.lock = after'.lock) : lockRecords before after = lockRecords before' after' := by
  unfold lockRecords
  rw [h, h']

/-- The state that an action on the lexer leaves. -/
def reached (progress : Progress) (after : Lexer) : Progress :=
  { progress with
    lexer := after
    assembly := { progress.assembly with
      log := progress.assembly.log ++ lockRecords progress.lexer after } }

theorem reached_beside {after after' : Lexer} (h : progress.lexer.lock = lexer.lock)
    (h' : after.lock = after'.lock) :
    reached { progress with lexer } after' = { reached progress after with lexer := after' } := by
  unfold reached
  dsimp only
  rw [lockRecords_congr h h']

theorem onLexer_ok {result : α} {after : Lexer} (h : action progress.lexer = (.ok result, after)) :
    onLexer template action progress = .ok result (reached progress after) := by
  unfold onLexer
  rw [h]
  rfl

theorem onLexer_error {fault : LexicalFault} {after : Lexer}
    (h : action progress.lexer = (.error fault, after)) :
    onLexer template action progress
      = .error (fault.inTemplate template.filename) (reached progress after) := by
  unfold onLexer
  rw [h]
  rfl

theorem leaves_onLexer (h : (action progress.lexer).Leaves place) :
    Leaves place (onLexer template action progress) := by
  rcases haction : action progress.lexer with ⟨fault | result, after⟩
  · rw [onLexer_error haction]
    rw [haction] at h
    exact .error h.suffix nofun
  · rw [onLexer_ok haction]
    rw [haction] at h
    exact .ok (h.past result rfl)

theorem meeting_onLexer (hlock : progress.lexer.lock = lexer.lock)
    (h : Alongside place (action progress.lexer) (action lexer)) :
    Meeting place (onLexer template action progress) (onLexer template action progress)
      (onLexer template action progress) (onLexer template action { progress with lexer }) := by
  cases h with
  | inStep bare_eq full_eq beside =>
      refine .inStep rfl (onLexer_ok bare_eq) ?_ beside
      rw [← reached_beside hlock beside.lock]
      exact onLexer_ok full_eq
  | @stopped fault after bare_eq full_eq =>
      have hfull : onLexer template action { progress with lexer }
          = .error (fault.inTemplate template.filename)
            { reached progress (after.withTail place.text) with
              lexer := after.withTail place.full } := by
        have hlock' : (after.withTail place.text).lock = (after.withTail place.full).lock := rfl
        rw [← reached_beside hlock hlock']
        exact onLexer_error full_eq
      exact .stopped (onLexer_error bare_eq) hfull
  | past leaves => exact .past rfl (leaves_onLexer leaves)

/-- An action on the lexer that takes the place when it comes to it. -/
theorem meets_onLexer (hpast : ∀ lexer, Past place lexer → (action lexer).Leaves place)
    (hbeside : ∀ lexer other, Beside place lexer other →
      Alongside place (action lexer) (action other)) :
    Meets place fun run => onLexer (template.inRun composer run) action := by
  simp only [onLexer_inRun]
  exact {
    answers := fun _ _ _ hrun => hrun
    behind := fun _ => .inr rfl
    past := fun _ h => ⟨rfl, leaves_onLexer (hpast _ h)⟩
    beside := fun _ _ h => meeting_onLexer h.lock (hbeside _ _ h) }

theorem meets_advance : Meets place fun run => advance (template.inRun composer run) :=
  meets_onLexer (fun _ h => h.advance) fun _ _ h => h.advance

theorem discard_eq (reader : Parse α) : discard reader = reader >>= fun _ => pure () := by
  rw [← bind_pure (discard reader), discard_bind]

theorem Meets.discard {reader : Run → Parse α} (h : Meets place reader) :
    Meets place fun run => Functor.discard (reader run) := by
  simp only [discard_eq]
  exact h.bind fun _ => meets_pure

theorem meets_drop : Meets place fun run => discard (advance (template.inRun composer run)) :=
  meets_advance.discard

theorem meets_skip (count : Nat) :
    Meets place fun run => skip (template.inRun composer run) count := by
  induction count with
  | zero => exact meets_pure
  | succ count ih => exact meets_drop.bind fun _ => ih

/-- A state whose lexer has looked at the shorthand last, with so many tokens in front of it. -/
structure Looked (place : BareShorthand) (offset : Nat) (core : Lexer) (progress : Progress) :
    Prop where
  lexer : progress.lexer = core.seen place
  pending : core.pending = []
  last : (core.deferred ++ core.stash).length = offset

/-- **A look at a token** and what comes of it, when one run has the shorthand there and the other
    one the element. -/
theorem meets_peekAt_bind {offset : Nat} {next : Run → Token → Parse β}
    (hnext : ∀ token, Meets place fun run => next run token)
    (hmet : ∀ core progress, Looked place offset core progress →
      Meeting place (next .probe (place.token core.line) progress)
        (next .other (place.token core.line) progress)
        (next .bare (place.token core.line) progress)
        (next .full ⟨core.line, .tag "div" false⟩
          { progress with lexer := core.seenFull place })) :
    Meets place fun run => peekAt (template.inRun composer run) offset >>= next run := by
  simp only [peekAt, onLexer_inRun]
  refine ⟨?_, ?_, ?_, ?_⟩
  · intro progress last done hrun
    obtain ⟨token, after, hfirst, hrest⟩ := bind_eq_ok hrun
    exact (bind_eq_of_ok hfirst).trans ((hnext token).answers hrest)
  · intro progress
    cases hlook : onLexer template (fun lexer => lexer.peekAt offset) progress with
    | ok token after =>
        rw [bind_eq_of_ok hlook, bind_eq_of_ok hlook, bind_eq_of_ok hlook]
        exact (hnext token).behind after
    | error fault after => exact .inr (by rw [bind_eq_of_error hlook, bind_eq_of_error hlook])
  · intro progress hpast
    have hlook : Leaving place (fun _ => onLexer template fun lexer => lexer.peekAt offset)
        progress := ⟨rfl, leaves_onLexer (hpast.peekAt offset)⟩
    exact hlook.bind fun token _ _ hpast => (hnext token).past hpast
  · intro progress lexer hbeside
    rcases hbeside.peekAt offset with halong | ⟨core, pending, last, bare_eq, full_eq⟩
    · exact .bind (fun _ => onLexer template fun lexer => lexer.peekAt offset) hnext
        (fun _ _ hbare => hbare) (meeting_onLexer hbeside.lock halong)
    · have hlock : (core.seen place).lock = (core.seenFull place).lock := rfl
      have hfull : onLexer template (fun lexer => lexer.peekAt offset) { progress with lexer }
          = .ok ⟨core.line, .tag "div" false⟩
            { reached progress (core.seen place) with lexer := core.seenFull place } := by
        rw [← reached_beside hbeside.lock hlock]
        exact onLexer_ok full_eq
      have hbare : onLexer template (fun lexer => lexer.peekAt offset) progress
          = .ok (place.token core.line) (reached progress (core.seen place)) := onLexer_ok bare_eq
      rw [bind_eq_of_ok hbare, bind_eq_of_ok hbare, bind_eq_of_ok hbare, bind_eq_of_ok hfull]
      exact hmet core _ ⟨rfl, pending, last⟩

/-- A look that does not tell the shorthand from the element. -/
theorem meets_look {offset : Nat} {next : Run → Token → Parse β}
    (hnext : ∀ token, Meets place fun run => next run token)
    (hsame : ∀ token : Token, token.IsShorthand →
      next .full ⟨token.line, .tag "div" false⟩ = next .full token) :
    Meets place fun run => peekAt (template.inRun composer run) offset >>= next run := by
  refine meets_peekAt_bind hnext fun core progress hlooked => ?_
  have hbeside : Beside place progress.lexer (core.seenFull place) := by
    rw [hlooked.lexer]
    exact .seen core hlooked.pending
  have hmeeting := (hnext (place.token core.line)).beside hbeside
  rw [← hsame _ (token_isShorthand place core.line)] at hmeeting
  exact hmeeting

/-- A look after which the place is left behind. -/
theorem meets_look_leaving {offset : Nat} {next : Run → Token → Parse β}
    (hnext : ∀ token, Meets place fun run => next run token)
    (hleaving : ∀ core progress, Looked place offset core progress →
      Leaving place (fun run => next run (place.token core.line)) progress) :
    Meets place fun run => peekAt (template.inRun composer run) offset >>= next run := by
  refine meets_peekAt_bind hnext fun core progress hlooked => ?_
  obtain ⟨hprobe, hleaves⟩ := hleaving core progress hlooked
  exact .past hprobe hleaves

/-- The shorthand is taken. -/
theorem leaving_advance {core : Lexer} (h : Looked place 0 core progress) :
    Leaving place (fun run => advance (template.inRun composer run)) progress := by
  obtain ⟨hdeferred, hstash⟩ := List.append_eq_nil_iff.mp (List.length_eq_zero_iff.mp h.last)
  refine ⟨rfl, leaves_onLexer ?_⟩
  rw [h.lexer]
  exact advance_seen h.pending hdeferred hstash

theorem leaving_drop {core : Lexer} (h : Looked place 0 core progress) :
    Leaving place (fun run => discard (advance (template.inRun composer run))) progress := by
  simp only [discard_eq]
  exact (leaving_advance h).bind fun _ _ _ hpast => meets_pure.past hpast

theorem ne_of_isShorthand {token : Token} {kind : TokenKind} (htoken : token.IsShorthand)
    (h : kind ∉ [.idName, .className]) : token.kind ≠ kind := by
  rintro rfl
  exact h (htoken.elim (fun h => by simp [h]) fun h => by simp [h])

theorem meets_expect {kind : TokenKind} (h : kind ∉ [.idName, .className]) :
    Meets place fun run => expect (template.inRun composer run) kind := by
  refine meets_look_leaving (fun token => .ite meets_advance meets_fail) ?_
  intro core progress hlooked
  have hkind := ne_of_isShorthand (token_isShorthand place core.line) h
  simp only [beq_eq_false_iff_ne.mpr hkind, Bool.false_eq_true, if_false]
  refine ⟨rfl, .error ?_ nofun⟩
  rw [hlooked.lexer]
  exact List.suffix_append place.name place.rest

/-- Whether the next token is of a kind that neither the shorthand nor the element has. -/
theorem meets_isAt {kind : TokenKind} (h : kind ∉ [.tag, .idName, .className]) :
    Meets place fun run => isAt (template.inRun composer run) kind := by
  obtain ⟨htag, hshorthand⟩ := not_or.mp (mt List.mem_cons.mpr h)
  refine meets_look (fun _ => meets_pure) fun token htoken => ?_
  have hother : Token.kind ⟨token.line, .tag "div" false⟩ ≠ kind := Ne.symm htag
  rw [beq_eq_false_iff_ne.mpr (ne_of_isShorthand htoken hshorthand),
    beq_eq_false_iff_ne.mpr hother]

theorem meets_skipNewlines :
    Meets place fun run => skipNewlines (template.inRun composer run) := by
  refine meets_bounded <| fuel_runs
    (fun fuel => Meets place fun run => skipNewlinesWith (template.inRun composer run) (fuel run))
    (fun _ => meets_exhausted rfl rfl rfl) fun fuel fuel' ih => ?_
  exact (meets_isAt (by decide)).bind fun _ => .ite (meets_drop.bind fun _ => ih) meets_pure

theorem meets_newlinesFrom : ∀ fuel fuel', fuel ≤ fuel' → ∀ offset, Meets place fun run =>
    newlinesFrom (template.inRun composer run) (run.fuel fuel fuel') offset := by
  refine fuel_runs
    (fun fuel => ∀ offset, Meets place fun run =>
      newlinesFrom (template.inRun composer run) (fuel run) offset)
    (fun _ _ => meets_exhausted rfl rfl rfl) fun fuel fuel' ih offset => ?_
  refine meets_look (fun _ => .ite (ih (offset + 1)) meets_pure) ?_
  rintro token (h | h)
  · rw [h]
    rfl
  · rw [h]
    rfl

/-- A change of the lexer. -/
theorem meets_lexer {f : Lexer → Lexer} (hpast : ∀ lexer, Past place lexer → Past place (f lexer))
    (hbeside : ∀ lexer other, Beside place lexer other → Beside place (f lexer) (f other)) :
    Meets place fun _ =>
      (modify fun progress => { progress with lexer := f progress.lexer } : Parse PUnit) where
  answers := fun _ _ _ hrun => hrun
  behind := fun _ => .inr rfl
  past := fun _ h => ⟨rfl, .ok (hpast _ h)⟩
  beside := fun _ _ h => .inStep rfl rfl rfl (hbeside _ _ h)

theorem meets_defer {tokens : List Token} : Meets place fun _ => defer tokens := by
  refine meets_lexer (f := tokens.foldl Lexer.defer) ?_ ?_
  · induction tokens with
    | nil => exact fun _ h => h
    | cons token tokens ih => exact fun _ h => ih _ (h.defer token)
  · induction tokens with
    | nil => exact fun _ _ h => h
    | cons token tokens ih => exact fun _ _ h => ih _ _ (h.defer token)

theorem meets_setMode {mode : Mode} : Meets place fun _ => setMode mode :=
  meets_lexer (fun _ h => h.inMode mode) fun _ _ h => h.inMode mode

end Tokens

end Parse

end Stencil
