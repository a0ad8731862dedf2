import Stencil.Grammar.Statement
import Stencil.Proofs.Lexer.Depth

/-! # Every reader ends — a total logic for readers

    A loop over tokens carries fuel, and would fail for lack of it if it ran
    longer than its bound.  `Ends pre reader post` says that from every state
    with `pre` the reader gives a result with `post`, or fails in one of the ways
    in which the template may (`Template.Fails`).  Lack of fuel is among these
    only when it is not known to suffice, so a reader that ends with fuel enough
    never lacks it, and its loops are loops of the text.  And only a text that
    mentions another template is refused for want of a file name: all that a
    reader does with its lexer is to make calls.

    The conditions are about where the reader of the lexer stands: how many
    blocks it is inside, and how many tokens may still come. -/

namespace Stencil

/-- The causes that the text of one template can be refused for. -/
inductive Cause.OfText : Cause → Prop where
  | mixedIndentation : OfText (.lexical .mixedIndentation)
  | unterminatedAttributes : OfText (.lexical .unterminatedAttributes)
  | mismatch (expected actual : TokenKind) : OfText (.mismatch expected actual)
  | unexpected (kind : TokenKind) : OfText (.unexpected kind)

/-- Such a fault is told as one of the text or of the grammar. -/
theorem Cause.OfText.diagnostic {fault : Fault} (h : fault.cause.OfText) :
    ∃ concern text, fault.diagnostic = .template concern text fault.place
      ∧ (concern = .lexical ∨ ∃ expected actual, concern = .syntactic expected actual) := by
  obtain ⟨cause, place⟩ := fault
  cases h with
  | mixedIndentation => exact ⟨_, _, rfl, .inl rfl⟩
  | unterminatedAttributes => exact ⟨_, _, rfl, .inl rfl⟩
  | mismatch expected actual => exact ⟨_, _, rfl, .inr ⟨_, _, rfl⟩⟩
  | unexpected kind => exact ⟨_, _, rfl, .inr ⟨_, _, rfl⟩⟩

/-- The causes that a template with a file name can be refused for where it names another one. -/
inductive Cause.OfNaming : Cause → Prop where
  | indentedLiteral (path : String) : OfNaming (.indentedLiteral path)
  | duplicateExtends (target : String) : OfNaming (.duplicateExtends target)
  | cycle (path : String) : OfNaming (.cycle path)
  | load (fault : LoadFault) (path : String) : OfNaming (.load fault path)

/-- A template without a file name names another one. -/
def Cause.Unnamed (cause : Cause) : Prop := cause = .unnamedExtends ∨ cause = .unnamedInclude

/-- What is known of a reading. -/
structure Reading where
  /-- The fuel suffices. -/
  enough : Prop
  /-- The lexer that it starts with. -/
  start : Lexer

/-- The ways in which reading a template may fail. -/
inductive Template.Fails (template : Template) (reading : Reading) : Fault → Prop where
  | text {fault : Fault} (cause : fault.cause.OfText) : Fails template reading fault
  | unnamed {fault : Fault} (nameless : template.filename = none)
      (mentioned : reading.start.Mentions) (cause : fault.cause.Unnamed) :
      Fails template reading fault
  | naming {fault : Fault} (named : template.filename ≠ none) (cause : fault.cause.OfNaming) :
      Fails template reading fault
  | composing {fault : Fault} (named : template.filename ≠ none) {source : Source}
      {assembly after : Assembly} (run : template.compose source assembly = .error fault after) :
      Fails template reading fault
  | exhausted {fault : Fault} (short : ¬ reading.enough) (cause : fault.cause = .exhausted) :
      Fails template reading fault

namespace Parse

variable {α β : Type} {template : Template} {reading : Reading}

/-- From every state with `pre` that plain calls lead to, the reader gives a result with `post`, or
    fails in a way in which the template may. -/
def Ends (template : Template) (reading : Reading) (pre : Lexer → Prop) (reader : Parse α)
    (post : α → Lexer → Prop) : Prop :=
  ∀ progress : Progress, reading.start.Reached progress.lexer → pre progress.lexer →
    match reader progress with
    | .ok result after => reading.start.Reached after.lexer ∧ post result after.lexer
    | .error fault _ => template.Fails reading fault

section Rules

variable {pre : Lexer → Prop} {reader other : Parse α} {next : α → Parse β}
  {post : α → Lexer → Prop} {goal : β → Lexer → Prop}

theorem ends_pure {result : α} (h : ∀ lexer, pre lexer → post result lexer) :
    Ends template reading pre (pure result) post :=
  fun progress hreached hpre => ⟨hreached, h progress.lexer hpre⟩

theorem Ends.bind {m : α → Lexer → Prop} (h : Ends template reading pre reader m)
    (hnext : ∀ result, Ends template reading (m result) (next result) goal) :
    Ends template reading pre (reader >>= next) goal := by
  intro progress hreached hpre
  have hrun := h progress hreached hpre
  show match EStateM.bind reader next progress with
    | .ok result after => reading.start.Reached after.lexer ∧ goal result after.lexer
    | .error fault _ => template.Fails reading fault
  unfold EStateM.bind
  cases hread : reader progress with
  | ok result middle =>
      rw [hread] at hrun
      exact hnext result middle hrun.1 hrun.2
  | error fault middle =>
      rw [hread] at hrun
      exact hrun

/-- A weaker condition before and a stronger one after. -/
theorem Ends.imp {strong : Lexer → Prop} {weak : α → Lexer → Prop}
    (h : Ends template reading pre reader post) (hpre : ∀ lexer, strong lexer → pre lexer)
    (hpost : ∀ result lexer, post result lexer → weak result lexer) :
    Ends template reading strong reader weak := by
  intro progress hreached hstrong
  have hrun := h progress hreached (hpre _ hstrong)
  cases hread : reader progress with
  | ok result after =>
      rw [hread] at hrun
      exact ⟨hrun.1, hpost _ _ hrun.2⟩
  | error fault after =>
      rw [hread] at hrun
      exact hrun

/-- A successful run leads from a state with `pre` to one with `post`. -/
theorem Ends.of_ok {progress after : Progress} {result : α}
    (h : Ends template reading pre reader post) (hreached : reading.start.Reached progress.lexer)
    (hpre : pre progress.lexer) (hrun : reader progress = .ok result after) :
    post result after.lexer := by
  have hends := h progress hreached hpre
  rw [hrun] at hends
  exact hends.2

/-- What holds in every state with the condition may be used. -/
theorem Ends.of_pre (h : ∀ lexer, pre lexer → Ends template reading pre reader post) :
    Ends template reading pre reader post :=
  fun progress hreached hpre => h progress.lexer hpre progress hreached hpre

theorem Ends.ite {condition : Prop} [Decidable condition]
    (h : condition → Ends template reading pre reader post)
    (hother : ¬ condition → Ends template reading pre other post) :
    Ends template reading pre (if condition then reader else other) post := by
  split
  · next hcondition => exact h hcondition
  · next hcondition => exact hother hcondition

/-- A failure in a way in which the template may fail. -/
theorem ends_fail {cause : Cause} {line : Int}
    (h : template.Fails reading ⟨cause, ⟨some line, template.filename⟩⟩) :
    Ends template reading pre (fail template cause line) post :=
  fun _ _ _ => h

/-- After a failure nothing is read. -/
theorem ends_fail_bind {cause : Cause} {line : Int}
    (h : template.Fails reading ⟨cause, ⟨some line, template.filename⟩⟩) :
    Ends template reading pre (fail template cause line >>= next) goal :=
  Ends.bind (m := fun _ _ => False) (ends_fail h) fun _ _ _ hfalse => hfalse.elim

/-- Fuel that is known to suffice is never used up. -/
theorem ends_exhausted (h : reading.enough → ∀ lexer, ¬ pre lexer) :
    Ends template reading pre (throw ⟨.exhausted, {}⟩) post := by
  intro progress hreached hpre
  exact .exhausted (fun henough => h henough _ hpre) rfl

/-! ## Readers that leave the tokens alone -/

/-- A reader that always succeeds, and moves nothing but the shared state. -/
def Calm (reader : Parse α) : Prop :=
  ∀ progress, ∃ result after, reader progress = .ok result after ∧ after.lexer = progress.lexer
    ∧ after.rawBase = progress.rawBase ∧ after.layout = progress.layout

theorem Calm.ends (h : Calm reader) : Ends template reading pre reader fun _ => pre := by
  intro progress hreached hpre
  obtain ⟨result, after, hread, hlexer, -⟩ := h progress
  rw [hread]
  show reading.start.Reached after.lexer ∧ pre after.lexer
  rw [hlexer]
  exact ⟨hreached, hpre⟩

/-- A calm reader, and one that goes on with its result. -/
theorem Calm.andThen (h : Calm reader)
    (hnext : ∀ result, Ends template reading pre (next result) goal) :
    Ends template reading pre (reader >>= next) goal :=
  h.ends.bind hnext

theorem calm_newNode {line : Int} {kind : Kind BlockId} {blocks : List (Block BlockId Draft)}
    {code : Option Draft} : Calm (newNode line kind blocks code) :=
  fun _ => ⟨_, _, rfl, rfl, rfl, rfl⟩

theorem calm_newBlock {line : Int} {nodes : List Draft} {props : BlockProps} :
    Calm (newBlock line nodes props) :=
  fun _ => ⟨_, _, rfl, rfl, rfl, rfl⟩

theorem calm_tell {channel message : String} : Calm (tell channel message) :=
  fun _ => ⟨_, _, rfl, rfl, rfl, rfl⟩

theorem calm_modifyAssembly {f : Assembly → Assembly} : Calm (modifyAssembly f) :=
  fun _ => ⟨_, _, rfl, rfl, rfl, rfl⟩

theorem calm_get : Calm (get : Parse Progress) := fun _ => ⟨_, _, rfl, rfl, rfl, rfl⟩

theorem calm_assemble {action : Assemble α}
    (h : ∀ assembly, ∃ result after, action assembly = .ok result after) :
    Calm (assemble action) := by
  intro progress
  obtain ⟨result, after, hrun⟩ := h progress.assembly
  refine ⟨result, { progress with assembly := after }, ?_, rfl, rfl, rfl⟩
  unfold assemble
  rw [hrun]

theorem calm_defineBlock {name : String} {block : Block BlockId Draft} {owner : Nat} :
    Calm (assemble (defineBlock name block owner)) :=
  calm_assemble fun _ => ⟨_, _, rfl⟩

/-- A change of the state that leaves the lexer alone. -/
theorem ends_modify {f : Progress → Progress} {next : PUnit → Parse β}
    (hlexer : ∀ progress, (f progress).lexer = progress.lexer)
    (h : Ends template reading pre (next ⟨⟩) goal) :
    Ends template reading pre (modify f >>= next) goal := by
  intro progress hreached hpre
  exact h (f progress) (by rwa [hlexer]) (by rwa [hlexer])

end Rules

/-! ## Tokens -/

section Tokens

open Lexer

variable {depth depth' bound : Nat} {deferred shown : List Token} {token : Token}
  {next : Token → Parse β} {post : β → Lexer → Prop}

/-- What was looked at need not be known. -/
theorem Ends.forget {reader : Parse α} {good : α → Lexer → Prop}
    (h : Ends template reading (Stands depth bound deferred []) reader good) :
    Ends template reading (Stands depth bound deferred shown) reader good :=
  h.imp (fun _ => Stands.forget) fun _ _ => id

/-- An action on the lexer that plain calls do, and that fails for causes of the text. -/
theorem ends_onLexer {pre : Lexer → Prop} {action : Lexer → Outcome α}
    {good : α → Lexer → Prop}
    (hcalls : ∀ lexer, reading.start.Reached lexer → reading.start.Reached (action lexer).2)
    (h : ∀ lexer, reading.start.Reached lexer → pre lexer → match action lexer with
      | (.ok result, after) => good result after
      | (.error fault, _) =>
          fault.cause = .mixedIndentation ∨ fault.cause = .unterminatedAttributes) :
    Ends template reading pre (onLexer template action) good := by
  intro progress hreached hpre
  have hafter := hcalls progress.lexer hreached
  have hrun := h progress.lexer hreached hpre
  unfold onLexer
  rcases haction : action progress.lexer with ⟨fault | result, after⟩
  · rw [haction] at hrun
    obtain ⟨cause, line⟩ := fault
    rcases hrun with rfl | rfl
    · exact .text .mixedIndentation
    · exact .text .unterminatedAttributes
  · rw [haction] at hrun hafter
    exact ⟨hafter, hrun⟩

/-- A look shows a token; if it names another template, then the text does. -/
theorem ends_peekAt_mentions {offset : Nat} (hoffset : shown.length = offset)
    (h : ∀ token, (token.kind.NamesTemplate → reading.start.Mentions) →
      Ends template reading (Stands depth bound deferred (shown ++ [token])) (next token) post) :
    Ends template reading (Stands depth bound deferred shown) (peekAt template offset >>= next)
      post := by
  refine Ends.bind
    (m := fun token lexer => (token.kind.NamesTemplate → reading.start.Mentions)
      ∧ Stands depth bound deferred (shown ++ [token]) lexer)
    (ends_onLexer (fun lexer hreached => hreached.peekAt offset) fun lexer hreached hpre => ?_)
    fun token => .of_pre fun lexer htoken => ?_
  · subst hoffset
    rcases hpeek : lexer.peekAt shown.length with ⟨fault | token, after⟩
    · exact peekAt_fault hpeek
    · exact ⟨hreached.mentions hpeek, hpre.peekAt hpeek⟩
  · exact (h token htoken.1).imp (fun _ => And.right) fun _ _ => id

theorem ends_peekAt {offset : Nat} (hoffset : shown.length = offset)
    (h : ∀ token, Ends template reading (Stands depth bound deferred (shown ++ [token]))
      (next token) post) :
    Ends template reading (Stands depth bound deferred shown) (peekAt template offset >>= next)
      post :=
  ends_peekAt_mentions hoffset fun token _ => h token

/-- A look shows the next token. -/
theorem ends_peek_mentions
    (h : ∀ token, (token.kind.NamesTemplate → reading.start.Mentions) →
      Ends template reading (Stands depth bound deferred [token]) (next token) post) :
    Ends template reading (Stands depth bound deferred shown) (peek template >>= next) post := by
  have hlook : Ends template reading (Stands depth bound deferred []) (peek template >>= next)
      post := ends_peekAt_mentions rfl h
  exact hlook.forget

theorem ends_peek
    (h : ∀ token, Ends template reading (Stands depth bound deferred [token]) (next token) post) :
    Ends template reading (Stands depth bound deferred shown) (peek template >>= next) post :=
  ends_peek_mentions fun token _ => h token

/-- A look at a deferred token. -/
theorem ends_peek_deferred
    (h : Ends template reading (Stands depth bound (token :: deferred) []) (next token) post) :
    Ends template reading (Stands depth bound (token :: deferred) shown)
      (peek template >>= next) post := by
  refine ends_peek fun first => .of_pre fun lexer hlexer => ?_
  obtain ⟨rfl, -⟩ := List.cons_prefix_cons.mp hlexer.seen
  exact h.forget

theorem ends_isAt {kind : TokenKind} {next : Bool → Parse β}
    (h : ∀ token, Ends template reading (Stands depth bound deferred [token])
      (next (token.kind == kind)) post) :
    Ends template reading (Stands depth bound deferred shown) (isAt template kind >>= next)
      post := by
  unfold isAt
  rw [bind_assoc]
  refine ends_peek fun token => ?_
  rw [pure_bind]
  exact h token

/-- Taking a token that was looked at. -/
theorem ends_advance (hmoves : token.kind.Moves depth depth') (hne : token.kind ≠ .eos)
    (h : Ends template reading (Stands depth' (bound - 1) [] shown) (next token) post) :
    Ends template reading (Stands depth bound [] (token :: shown)) (advance template >>= next)
      post := by
  refine Ends.bind
    (m := fun taken lexer => taken = token ∧ Stands depth' (bound - 1) [] shown lexer)
    (ends_onLexer (fun _ => Reached.advance) fun lexer _ hlexer => ?_)
    fun taken => .of_pre fun lexer htaken => ?_
  · obtain ⟨after, hadvance, hafter⟩ := hlexer.advance hmoves hne
    rw [hadvance]
    exact ⟨rfl, hafter⟩
  · obtain ⟨rfl, -⟩ := htaken
    exact h.imp (fun _ => And.right) fun _ _ => id

/-- Taking a deferred token. -/
theorem ends_advance_deferred
    (h : Ends template reading (Stands depth bound deferred []) (next token) post) :
    Ends template reading (Stands depth bound (token :: deferred) shown)
      (advance template >>= next) post := by
  refine Ends.bind
    (m := fun taken lexer => taken = token ∧ Stands depth bound deferred [] lexer)
    (ends_onLexer (fun _ => Reached.advance) fun lexer _ hlexer => ?_)
    fun taken => .of_pre fun lexer htaken => ?_
  · obtain ⟨after, hadvance, hafter⟩ := hlexer.advance_deferred
    rw [hadvance]
    exact ⟨rfl, hafter⟩
  · obtain ⟨rfl, -⟩ := htaken
    exact h.imp (fun _ => And.right) fun _ _ => id

theorem discard_bind (reader : Parse α) (next : Unit → Parse β) :
    (discard reader >>= next) = reader >>= fun _ => next () := by
  rw [Functor.discard, LawfulFunctor.map_const, Function.comp_apply, map_eq_pure_bind, bind_assoc]
  simp only [pure_bind, Function.const_apply]

/-- Dropping a token that was looked at, when the reader stays inside the same blocks. -/
theorem ends_drop {next : Unit → Parse β} (hkeep : token.kind.keepsLevel = true)
    (h : Ends template reading (Stands depth (bound - 1) [] shown) (next ()) post) :
    Ends template reading (Stands depth bound [] (token :: shown))
      (discard (advance template) >>= next) post := by
  rw [discard_bind]
  exact ends_advance (TokenKind.moves_of_keepsLevel hkeep depth)
    (TokenKind.ne_eos_of_keepsLevel hkeep) h

theorem ends_drop_deferred {next : Unit → Parse β}
    (h : Ends template reading (Stands depth bound deferred []) (next ()) post) :
    Ends template reading (Stands depth bound (token :: deferred) shown)
      (discard (advance template) >>= next) post := by
  rw [discard_bind]
  exact ends_advance_deferred h

/-- Taking a token that has to be of a kind; if it names another template, then the text does. -/
theorem ends_expect_mentions {kind : TokenKind} (hmoves : kind.Moves depth depth')
    (hne : kind ≠ .eos)
    (h : ∀ token, (kind.NamesTemplate → reading.start.Mentions) →
      Ends template reading (Stands depth' (bound - 1) [] []) (next token) post) :
    Ends template reading (Stands depth bound [] shown) (expect template kind >>= next) post := by
  unfold expect
  rw [bind_assoc]
  refine ends_peek_mentions fun token hmentions => ?_
  by_cases hkind : token.kind = kind
  · rw [if_pos (beq_iff_eq.mpr hkind)]
    subst hkind
    exact ends_advance hmoves hne (h token hmentions)
  · rw [if_neg (by simpa using hkind)]
    exact ends_fail_bind (.text (.mismatch _ _))

theorem ends_expect {kind : TokenKind} (hmoves : kind.Moves depth depth') (hne : kind ≠ .eos)
    (h : ∀ token, Ends template reading (Stands depth' (bound - 1) [] []) (next token) post) :
    Ends template reading (Stands depth bound [] shown) (expect template kind >>= next) post :=
  ends_expect_mentions hmoves hne fun token _ => h token

theorem ends_expect_deferred {kind : TokenKind}
    (h : token.kind = kind →
      Ends template reading (Stands depth bound deferred []) (next token) post) :
    Ends template reading (Stands depth bound (token :: deferred) shown)
      (expect template kind >>= next) post := by
  unfold expect
  rw [bind_assoc]
  refine ends_peek_deferred ?_
  by_cases hkind : token.kind = kind
  · rw [if_pos (beq_iff_eq.mpr hkind)]
    exact ends_advance_deferred (h hkind)
  · rw [if_neg (by simpa using hkind)]
    exact ends_fail_bind (.text (.mismatch _ _))

theorem ends_dropExpected {kind : TokenKind} {next : Unit → Parse β}
    (hmoves : kind.Moves depth depth') (hne : kind ≠ .eos)
    (h : Ends template reading (Stands depth' (bound - 1) [] []) (next ()) post) :
    Ends template reading (Stands depth bound [] shown)
      (discard (expect template kind) >>= next) post := by
  rw [discard_bind]
  exact ends_expect hmoves hne fun _ => h

/-- The bound on the number of steps is as tight as can be. -/
theorem ends_tokenBound {next : Nat → Parse β}
    (h : ∀ left, left ≤ bound → Ends template reading (Stands depth left deferred [])
      (next (left + deferred.length)) post) :
    Ends template reading (Stands depth bound deferred shown) (tokenBound >>= next) post := by
  intro progress hreached hpre
  have hlength := hpre.length_le
  have hbound := hpre.potential
  have hleft : progress.lexer.potential + 1
      = progress.lexer.potential + 1 - deferred.length + deferred.length := by omega
  have hstands : Stands depth (progress.lexer.potential + 1 - deferred.length) deferred []
      progress.lexer :=
    { hpre.forget with potential := by omega }
  show match next (progress.lexer.potential + 1) progress with
    | .ok result after => reading.start.Reached after.lexer ∧ post result after.lexer
    | .error fault _ => template.Fails reading fault
  rw [hleft]
  exact h _ (by omega) progress hreached hstands

end Tokens

end Parse

end Stencil
