import Mathlib.Data.List.GetD
import Stencil.Proofs.Lexer.Ahead
import Stencil.Proofs.Lexer.Tails

/-! # Lexers that differ in line numbers

    The numbers of lines go into tokens and faults and nowhere else: no step of a
    lexer looks at one.  So lexers that differ in them alone (`Like`) give tokens
    that differ in them alone, or fail for one cause, and stay alike
    (`next_like`, `peekAt_like`, `advance_like`). -/

namespace Stencil

/-- Tokens that say the same, on whatever lines. -/
def Token.Like (token other : Token) : Prop := token.lexeme = other.lexeme

theorem Token.Like.kind {token other : Token} (h : token.Like other) : token.kind = other.kind :=
  congrArg Lexeme.kind h

theorem Token.Like.value {token other : Token} (h : token.Like other) :
    token.value = other.value :=
  congrArg Lexeme.value h

namespace Lexer

/-- Lexers that differ in the numbers of lines alone. -/
structure Like (lexer other : Lexer) : Prop where
  input : lexer.input = other.input
  mode : lexer.mode = other.mode
  colons : lexer.colons = other.colons
  levels : lexer.levels = other.levels
  style : lexer.lock.map IndentLock.style = other.lock.map IndentLock.style
  deferred : lexer.deferred.map Token.lexeme = other.deferred.map Token.lexeme
  stash : lexer.stash.map Token.lexeme = other.stash.map Token.lexeme
  pending : lexer.pending.map Token.lexeme = other.pending.map Token.lexeme

/-- Outcomes that differ in the numbers of lines alone; `same` compares the results. -/
inductive Outcome.Like {α : Type} (same : α → α → Prop) : Outcome α → Outcome α → Prop where
  | ok {result result' : α} {after after' : Lexer} (results : same result result')
      (lexers : after.Like after') : Outcome.Like same (.ok result, after) (.ok result', after')
  | error {fault fault' : LexicalFault} {after after' : Lexer} (causes : fault.cause = fault'.cause)
      (lexers : after.Like after') : Outcome.Like same (.error fault, after) (.error fault', after')

variable {lexer other : Lexer} {token token' : Token} {text : List Char} {width offset : Nat}

theorem Like.refl (lexer : Lexer) : lexer.Like lexer := ⟨rfl, rfl, rfl, rfl, rfl, rfl, rfl, rfl⟩

theorem Like.symm (h : lexer.Like other) : other.Like lexer :=
  ⟨h.input.symm, h.mode.symm, h.colons.symm, h.levels.symm, h.style.symm, h.deferred.symm,
    h.stash.symm, h.pending.symm⟩

theorem Like.trans {last : Lexer} (h : lexer.Like other) (hlast : other.Like last) :
    lexer.Like last where
  input := h.input.trans hlast.input
  mode := h.mode.trans hlast.mode
  colons := h.colons.trans hlast.colons
  levels := h.levels.trans hlast.levels
  style := h.style.trans hlast.style
  deferred := h.deferred.trans hlast.deferred
  stash := h.stash.trans hlast.stash
  pending := h.pending.trans hlast.pending

/-- An outcome that is like a success. -/
theorem Outcome.Like.of_ok {α : Type} {same : α → α → Prop} {result : α} {after : Lexer}
    {outcome : Outcome α} (h : Outcome.Like same (.ok result, after) outcome) :
    ∃ result' after', outcome = (.ok result', after') ∧ same result result'
      ∧ after.Like after' := by
  cases h with
  | ok results lexers => exact ⟨_, _, rfl, results, lexers⟩

theorem Outcome.Like.trans {outcome outcome' outcome'' : Outcome Token}
    (h : Outcome.Like Token.Like outcome outcome')
    (hlast : Outcome.Like Token.Like outcome' outcome'') :
    Outcome.Like Token.Like outcome outcome'' := by
  cases h with
  | ok results lexers =>
      cases hlast with
      | ok results' lexers' => exact .ok (Eq.trans results results') (lexers.trans lexers')
  | error causes lexers =>
      cases hlast with
      | error causes' lexers' => exact .error (causes.trans causes') (lexers.trans lexers')

theorem map_lexeme_append {tokens tokens' more more' : List Token}
    (h : tokens.map Token.lexeme = tokens'.map Token.lexeme)
    (hmore : more.map Token.lexeme = more'.map Token.lexeme) :
    (tokens ++ more).map Token.lexeme = (tokens' ++ more').map Token.lexeme := by
  rw [List.map_append, List.map_append, h, hmore]

/-! ## Steps -/

theorem styleFor_eq_getD (lock : Option IndentLock) (text : List Char) :
    styleFor lock text = (lock.map IndentLock.style).getD (styleFor none text) := by
  cases lock <;> rfl

theorem Like.enterLine (h : lexer.Like other) (text : List Char) :
    (lexer.enterLine text).Like (other.enterLine text) := by
  have hstyle : styleFor lexer.lock text = styleFor other.lock text := by
    rw [styleFor_eq_getD, h.style, ← styleFor_eq_getD]
  refine ⟨?_, h.mode, h.colons, h.levels, ?_, h.deferred, h.stash, h.pending⟩
  · dsimp only [Lexer.enterLine]
    rw [hstyle]
  · dsimp only [Lexer.enterLine]
    rw [← Form.map_orElse, ← Form.map_orElse, h.style, hstyle]
    split <;> rfl

theorem placeLine_like (h : lexer.Like other) (width : Nat) :
    Outcome.Like Token.Like (lexer.placeLine width) (other.placeLine width) := by
  unfold placeLine
  dsimp only
  rw [h.levels]
  split
  · refine .ok rfl ⟨h.input, h.mode, h.colons, ?_, h.style, h.deferred, h.stash, ?_⟩
    · dsimp only
      rw [h.levels]
    · dsimp only
      rw [h.levels]
      exact map_lexeme_append h.pending (by rw [List.map_replicate, List.map_replicate]; rfl)
  · split
    · exact .ok rfl ⟨h.input, h.mode, h.colons, by dsimp only, h.style, h.deferred,
        h.stash, h.pending⟩
    · exact .ok rfl h

theorem readLineBreak_like (h : lexer.Like other) (text : List Char) :
    Outcome.Like Token.Like (lexer.readLineBreak text) (other.readLineBreak text) := by
  have hentered := h.enterLine text
  have hstyle : styleFor lexer.lock text = styleFor other.lock text := by
    rw [styleFor_eq_getD, h.style, ← styleFor_eq_getD]
  unfold readLineBreak
  dsimp only
  rw [hentered.input, hstyle]
  split
  · exact .ok rfl hentered
  · split
    · exact .error rfl hentered
    · split
      · exact .ok rfl hentered
      · exact placeLine_like hentered _

theorem readEnd_like (h : lexer.Like other) :
    Outcome.Like Token.Like lexer.readEnd other.readEnd := by
  unfold readEnd
  rw [h.levels]
  split
  · exact .ok rfl h
  · exact .ok rfl ⟨h.input, h.mode, h.colons, rfl, h.style, h.deferred, h.stash, h.pending⟩

theorem readAttributes_like (h : lexer.Like other) (text : List Char) :
    Outcome.Like Token.Like (lexer.readAttributes text) (other.readAttributes text) := by
  unfold readAttributes
  split
  · exact .error rfl h
  · refine .ok ?_ ⟨rfl, h.mode, h.colons, h.levels, h.style, h.deferred, h.stash, h.pending⟩
    exact congrArg (fun colons => Lexeme.attrs (Attribute.parseList _ colons) _) h.colons

theorem readRawLine_like (h : lexer.Like other) :
    Outcome.Like Token.Like lexer.readRawLine other.readRawLine := by
  unfold readRawLine
  rw [h.input]
  exact .ok rfl ⟨rfl, h.mode, h.colons, h.levels, h.style, h.deferred, h.stash, h.pending⟩

theorem readForm_like (h : lexer.Like other) :
    Outcome.Like Token.Like lexer.readForm other.readForm := by
  unfold readForm
  rw [h.input]
  split
  · exact .error rfl h
  · refine .ok rfl ⟨rfl, h.mode, h.colons, h.levels, h.style, h.deferred, h.stash, ?_⟩
    refine map_lexeme_append h.pending ?_
    split <;> rfl

theorem scanLine_like (h : lexer.Like other) :
    Outcome.Like Token.Like lexer.scanLine other.scanLine := by
  unfold scanLine
  rw [h.input, h.mode]
  split
  · exact readEnd_like h
  · exact readLineBreak_like h _
  · split
    · exact readRawLine_like h
    · split
      · exact readAttributes_like h _
      · exact readForm_like h

theorem Like.skipBlankLines (fuel : Nat) : ∀ {lexer other : Lexer}, lexer.Like other →
    (lexer.skipBlankLines fuel).Like (other.skipBlankLines fuel) := by
  induction fuel with
  | zero => exact fun h => h
  | succ fuel ih =>
      intro lexer other h
      rw [Lexer.skipBlankLines, Lexer.skipBlankLines, h.input]
      split
      · exact ih ⟨rfl, h.mode, h.colons, h.levels, h.style, h.deferred, h.stash, h.pending⟩
      · exact h

theorem scan_like (h : lexer.Like other) : Outcome.Like Token.Like lexer.scan other.scan := by
  unfold scan
  rw [h.input, h.mode]
  split
  · exact scanLine_like h
  · next rest _ =>
      have hentered : { lexer with input := rest, line := lexer.line + 1, mode := other.mode }.Like
          { other with input := rest, line := other.line + 1 } :=
        ⟨rfl, rfl, h.colons, h.levels, h.style, h.deferred, h.stash, h.pending⟩
      split
      · exact .ok rfl hentered
      · exact scanLine_like (hentered.skipBlankLines _)

/-- Alike queues are both empty, or both have a token at the front. -/
theorem queue_cases {queue queue' : List Token}
    (h : queue.map Token.lexeme = queue'.map Token.lexeme) :
    queue = [] ∧ queue' = []
      ∨ ∃ token token' left left', queue = token :: left ∧ queue' = token' :: left'
        ∧ token.Like token' ∧ left.map Token.lexeme = left'.map Token.lexeme := by
  cases queue with
  | nil => exact .inl ⟨rfl, List.map_eq_nil_iff.mp h.symm⟩
  | cons token left =>
      obtain ⟨token', left', rfl, htoken, hleft⟩ := List.map_eq_cons_iff.mp h.symm
      exact .inr ⟨token, token', left, left', rfl, rfl, htoken.symm, hleft.symm⟩

/-- **No step looks at the number of a line.** -/
theorem next_like (h : lexer.Like other) : Outcome.Like Token.Like lexer.next other.next := by
  unfold next
  rcases queue_cases h.pending with
    ⟨hempty, hempty'⟩ | ⟨token, token', left, left', hqueue, hqueue', htoken, hleft⟩
  · rw [hempty, hempty']
    exact scan_like h
  · rw [hqueue, hqueue']
    exact .ok htoken ⟨h.input, h.mode, h.colons, h.levels, h.style, h.deferred, h.stash, hleft⟩

/-! ## The stream -/

theorem advance_like (h : lexer.Like other) :
    Outcome.Like Token.Like lexer.advance other.advance := by
  unfold advance
  rcases queue_cases h.deferred with
    ⟨hempty, hempty'⟩ | ⟨token, token', left, left', hqueue, hqueue', htoken, hleft⟩
  · have hdeferred : ([] : List Token).map Token.lexeme = ([] : List Token).map Token.lexeme := rfl
    rw [hempty, hempty']
    rcases queue_cases h.stash with
      ⟨hnone, hnone'⟩ | ⟨token, token', left, left', hqueue, hqueue', htoken, hleft⟩
    · rw [hnone, hnone']
      exact next_like h
    · rw [hqueue, hqueue']
      exact .ok htoken ⟨h.input, h.mode, h.colons, h.levels, h.style, hdeferred, hleft,
        h.pending⟩
  · rw [hqueue, hqueue']
    exact .ok htoken ⟨h.input, h.mode, h.colons, h.levels, h.style, hleft, h.stash, h.pending⟩

/-- A token that was looked at is put into the stash. -/
theorem Like.stash_append (h : lexer.Like other) (htoken : token.Like token') :
    { lexer with stash := lexer.stash ++ [token] }.Like
      { other with stash := other.stash ++ [token'] } :=
  ⟨h.input, h.mode, h.colons, h.levels, h.style, h.deferred,
    map_lexeme_append h.stash (congrArg (fun lexeme => [lexeme]) htoken), h.pending⟩

theorem stock_like (count : Nat) : ∀ {lexer other : Lexer}, lexer.Like other →
    Outcome.Like (fun _ _ => True) (lexer.stock count) (other.stock count) := by
  induction count with
  | zero => exact fun h => .ok trivial h
  | succ count ih =>
      intro lexer other h
      have hnext := next_like h
      rw [stock, stock]
      generalize lexer.next = outcome at hnext
      generalize other.next = outcome' at hnext
      cases hnext with
      | error hcause hafter => exact .error hcause hafter
      | ok htoken hafter =>
          exact ih (hafter.stash_append htoken)

/-- What a look finds when enough tokens were read. -/
def looked (offset : Nat) : Outcome Unit → Outcome Token
  | (.error fault, after) => (.error fault, after)
  | (.ok (), after) => (.ok ((after.deferred ++ after.stash).getD offset (after.token .eos)), after)

theorem peekAt_eq_looked (lexer : Lexer) (offset : Nat) :
    lexer.peekAt offset = looked offset
      (lexer.stock (offset + 1 - (lexer.deferred.length + lexer.stash.length))) := by
  unfold peekAt
  rcases lexer.stock _ with ⟨fault | _, after⟩ <;> rfl

theorem looked_like {same : Unit → Unit → Prop} {outcome outcome' : Outcome Unit}
    (h : Outcome.Like same outcome outcome') (offset : Nat) :
    Outcome.Like Token.Like (looked offset outcome) (looked offset outcome') := by
  cases h with
  | error causes lexers => exact .error causes lexers
  | ok _ lexers =>
      refine .ok ?_ lexers
      have hget : ∀ (tokens : List Token) (line : Nat),
          (tokens.getD offset (.bare .eos line)).lexeme
            = (tokens.map Token.lexeme).getD offset (.bare .eos "") := fun tokens line =>
        (List.getD_map (f := Token.lexeme) ..).symm
      have hwaiting := map_lexeme_append lexers.deferred lexers.stash
      exact (hget _ _).trans ((congrArg (List.getD · offset _) hwaiting).trans (hget _ _).symm)

theorem peekAt_like (h : lexer.Like other) (offset : Nat) :
    Outcome.Like Token.Like (lexer.peekAt offset) (other.peekAt offset) := by
  have hdeferred : lexer.deferred.length = other.deferred.length := by
    simpa using congrArg List.length h.deferred
  have hstash : lexer.stash.length = other.stash.length := by
    simpa using congrArg List.length h.stash
  rw [peekAt_eq_looked, peekAt_eq_looked, hdeferred, hstash]
  exact looked_like (stock_like _ h) offset

theorem Like.defer (h : lexer.Like other) (htoken : token.Like token') :
    (lexer.defer token).Like (other.defer token') :=
  ⟨h.input, h.mode, h.colons, h.levels, h.style,
    map_lexeme_append h.deferred (congrArg (fun lexeme => [lexeme]) htoken), h.stash, h.pending⟩

end Lexer

end Stencil
