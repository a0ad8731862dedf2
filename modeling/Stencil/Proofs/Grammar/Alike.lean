import Mathlib.Logic.Function.Basic
import Stencil.Proofs.Grammar.Ensures

/-! # Readers that run alike — what a run is told from outside

    A part of a composition is often a parameter: the way in which other
    templates are composed, or the way in which a raw body is read.  A run
    `DependsOn` the answer to a question when another answer to it changes the
    outcome; so whatever a run really asks, it depends on.

    `Alike pre reader other post` says that two readers do the same in every
    state with `pre`, and lead to one with `post` when they succeed.  Readers
    that are given answers which agree on some questions and run alike have not
    asked anything else (`DependsOn.of_congr`). -/

namespace Stencil

open scoped Classical in
/-- With another answer to the question, the run comes out otherwise. -/
def DependsOn {Question Answer Outcome : Type} (run : (Question → Answer) → Outcome)
    (answers : Question → Answer) (question : Question) : Prop :=
  ∃ answer, run (Function.update answers question answer) ≠ run answers

theorem dependsOn_of_ne {Question Answer Outcome : Type} [inst : DecidableEq Question]
    {run : (Question → Answer) → Outcome} {answers : Question → Answer} {question : Question}
    {answer : Answer} (h : run (Function.update answers question answer) ≠ run answers) :
    DependsOn run answers question := by
  obtain rfl : inst = fun first second => Classical.propDecidable (first = second) :=
    Subsingleton.elim _ _
  exact ⟨answer, h⟩

/-- A run that comes out the same with answers that agree on some questions depends on these. -/
theorem DependsOn.of_congr {Question Answer Outcome : Type} {run : (Question → Answer) → Outcome}
    {answers : Question → Answer} {question : Question} {asked : Question → Prop}
    (h : DependsOn run answers question)
    (hcongr : ∀ other : Question → Answer, (∀ q, asked q → answers q = other q) →
      run answers = run other) : asked question := by
  classical
  obtain ⟨answer, hne⟩ := h
  by_contra hasked
  refine hne (hcongr _ fun q hq => ?_).symm
  have hother : q ≠ question := fun heq => hasked (heq ▸ hq)
  exact (Function.update_of_ne hother _ _).symm

namespace Parse

variable {α β : Type}

/-- In every state with `pre` the readers do the same, and when they succeed they lead to one with
    `post`. -/
def Alike (pre : Progress → Prop) (reader other : Parse α) (post : α → Progress → Prop) : Prop :=
  ∀ progress, pre progress → reader progress = other progress
    ∧ ∀ result after, reader progress = .ok result after → post result after

variable {pre : Progress → Prop} {reader other : Parse α} {post : α → Progress → Prop}

theorem alike_pure {result : α} (h : ∀ progress, pre progress → post result progress) :
    Alike pre (pure result) (pure result) post := by
  intro progress hpre
  refine ⟨rfl, ?_⟩
  rintro _ _ ⟨⟩
  exact h progress hpre

theorem Alike.bind {next next' : α → Parse β} {m : α → Progress → Prop}
    {goal : β → Progress → Prop} (h : Alike pre reader other m)
    (hnext : ∀ result, Alike (m result) (next result) (next' result) goal) :
    Alike pre (reader >>= next) (other >>= next') goal := by
  intro progress hpre
  obtain ⟨hsame, hpost⟩ := h progress hpre
  constructor
  · show EStateM.bind reader next progress = EStateM.bind other next' progress
    unfold EStateM.bind
    rw [← hsame]
    cases hread : reader progress with
    | ok result middle => exact (hnext result middle (hpost _ _ hread)).1
    | error fault middle => rfl
  · intro result after hrun
    obtain ⟨first, middle, hfirst, hrest⟩ := bind_eq_ok hrun
    exact (hnext first middle (hpost _ _ hfirst)).2 _ _ hrest

/-- A weaker condition before and a stronger one after. -/
theorem Alike.imp {strong : Progress → Prop} {weak : α → Progress → Prop}
    (h : Alike pre reader other post) (hpre : ∀ progress, strong progress → pre progress)
    (hpost : ∀ result progress, post result progress → weak result progress) :
    Alike strong reader other weak := by
  intro progress hstrong
  obtain ⟨hsame, hends⟩ := h progress (hpre _ hstrong)
  exact ⟨hsame, fun result after hrun => hpost _ _ (hends _ _ hrun)⟩

theorem Alike.ite {condition : Prop} [Decidable condition] {reader' other' : Parse α}
    (h : condition → Alike pre reader other post)
    (hother : ¬ condition → Alike pre reader' other' post) :
    Alike pre (if condition then reader else reader') (if condition then other else other')
      post := by
  split
  · next hcondition => exact h hcondition
  · next hcondition => exact hother hcondition

/-- What holds in every state with the condition may be used. -/
theorem Alike.of_pre (h : ∀ progress, pre progress → Alike pre reader other post) :
    Alike pre reader other post :=
  fun progress hpre => h progress hpre progress hpre

/-- What is said besides the state may be used, and is not needed of the state. -/
theorem Alike.of_and {fact : Prop} (h : fact → Alike pre reader other post) :
    Alike (fun progress => fact ∧ pre progress) reader other post :=
  fun progress ⟨hfact, hpre⟩ => h hfact progress hpre

theorem alike_throw {fault : Fault} :
    Alike pre (throw fault : Parse α) (throw fault) post :=
  fun _ _ => ⟨rfl, nofun⟩

end Parse

end Stencil
