import Stencil.Proofs.Lexer.Gaps

/-! # Bridges — what a reader of the stream asks above a gap

    Whatever a reader asks of a lexer above a gap, one of four things comes of it
    (`Bridges`): an attribute list is open at the gap; the answer does not depend
    on what stands behind the text above; the answer is read across the gap
    between statements, and is the same up to line numbers with and without the
    blank line; or lines are read as they stand, and nothing but blank lines is
    left above the gap (`Spent`).  Steps and looks ahead of any length are
    bridged (`next_bridges`, `peekAt_bridges`, `advance_bridges`). -/

namespace Stencil

open Lexer

variable {lexer : Lexer} {gap : Gap} {α : Type}

/-! ## The mode -/

namespace Lexer

theorem readLineBreak_mode (lexer : Lexer) (text : List Char) :
    (lexer.readLineBreak text).2.mode = lexer.mode := by
  unfold readLineBreak
  dsimp only
  split
  · rfl
  · split
    · rfl
    · split
      · rfl
      · unfold placeLine
        dsimp only
        split
        · rfl
        · split <;> rfl

theorem scanLine_mode (lexer : Lexer) : lexer.scanLine.2.mode = lexer.mode := by
  unfold scanLine
  split
  · unfold readEnd
    split <;> rfl
  · exact readLineBreak_mode lexer _
  · split
    · rfl
    · split
      · unfold readAttributes
        split <;> rfl
      · unfold readForm
        split <;> rfl

/-- A step keeps the mode. -/
theorem next_mode (lexer : Lexer) : lexer.next.2.mode = lexer.mode := by
  unfold next
  split
  · rfl
  · rcases scan_cases lexer with hscan | ⟨text, line, -, hscan⟩ | ⟨text, line, -, hscan⟩
    · exact hscan ▸ scanLine_mode lexer
    · rw [hscan]
      rfl
    · rw [hscan]
      exact readLineBreak_mode _ text

theorem stock_mode (count : Nat) : ∀ lexer : Lexer, (lexer.stock count).2.mode = lexer.mode := by
  induction count with
  | zero => exact fun _ => rfl
  | succ count ih =>
      intro lexer
      have hnext := next_mode lexer
      rw [stock]
      rcases hstep : lexer.next with ⟨fault | token, after⟩
      · rwa [hstep] at hnext
      · rw [hstep] at hnext
        exact (ih _).trans hnext

theorem peekAt_mode (lexer : Lexer) (offset : Nat) : (lexer.peekAt offset).2.mode = lexer.mode := by
  rw [peekAt_after, stock_mode]

theorem advance_mode (lexer : Lexer) : lexer.advance.2.mode = lexer.mode := by
  unfold advance
  split
  · rfl
  · split
    · rfl
    · exact next_mode lexer

end Lexer

/-! ## Nothing but blank lines above the gap -/

/-- Nothing but blank lines is left above the gap. -/
def Gap.Spent (gap : Gap) (lexer : Lexer) : Prop :=
  ∀ above, lexer.input = above ++ gap.rest → BlankLines above

/-- In raw mode a step takes a blank line as a whole. -/
theorem Gap.Spent.next (h : gap.Spent lexer) (hmode : lexer.mode = .raw) :
    gap.Spent lexer.next.2 := by
  intro above habove
  rcases hpending : lexer.pending with - | ⟨token, pending⟩
  · obtain ⟨taken, htaken⟩ := next_suffix lexer
    rw [habove, ← List.append_assoc] at htaken
    have hblank := h _ htaken.symm
    generalize htext : taken ++ above = text at hblank
    cases hblank with
    | nil =>
        obtain ⟨-, rfl⟩ := List.append_eq_nil_iff.mp htext
        exact .nil
    | @line blank text hline hrest =>
        obtain ⟨more, hmore⟩ : ∃ more, text ++ gap.rest = '\n' :: more := by
          cases hrest <;> exact ⟨_, rfl⟩
        have hinput : lexer.input = '\n' :: (blank ++ '\n' :: more) := by
          rw [← htaken, htext, ← hmore, List.cons_append, List.append_assoc]
        have hnext : lexer.next.2.input = '\n' :: more := by
          unfold Lexer.next scan
          rw [hpending, hinput, afterBlankLine?_blank hline, hmode]
          rfl
        rw [habove, ← hmore] at hnext
        exact List.append_cancel_right hnext ▸ hrest
  · have hnext : lexer.next.2.input = lexer.input := by
      unfold Lexer.next
      rw [hpending]
      rfl
    exact h above (hnext ▸ habove)

theorem Gap.Spent.stock (count : Nat) : ∀ {lexer : Lexer}, gap.Spent lexer → lexer.mode = .raw →
    gap.Spent (lexer.stock count).2 := by
  induction count with
  | zero => exact fun h _ => h
  | succ count ih =>
      intro lexer h hmode
      have hnext := h.next hmode
      have hmode' := (next_mode lexer).trans hmode
      rw [Lexer.stock]
      rcases hstep : lexer.next with ⟨fault | token, after⟩
      · rwa [hstep] at hnext
      · rw [hstep] at hnext hmode'
        exact ih hnext hmode'

/-- Blank lines above the gap are nothing but blank lines. -/
theorem spent_withTail (h : BlankLines lexer.input) : gap.Spent (lexer.withTail gap.rest) :=
  fun _ habove => List.append_cancel_right habove ▸ h

/-- What comes of a question to a lexer above a gap; `same` compares the answers. -/
inductive Gap.Bridges (gap : Gap) (same : α → α → Prop) (action : Lexer → Outcome α)
    (lexer : Lexer) : Prop where
  /-- An attribute list is open at the gap. -/
  | unclosed (stops : (action lexer).Unclosed)
  /-- Nothing behind the text above is looked at. -/
  | above (answer : ∀ tail, EndsLine tail →
      action (lexer.withTail tail) = (action lexer).withTail tail)
  /-- The gap is read across, between statements. -/
  | across (mode : lexer.mode = .markup) (answer : Outcome.Like same
      (action (lexer.withTail gap.rest)) (action (lexer.withTail gap.wide)))
  /-- The gap is reached in raw lines. -/
  | spent (mode : lexer.mode = .raw) (left : gap.Spent (action (lexer.withTail gap.rest)).2)

section Bridges

variable (gap : Gap) (lexer : Lexer)

/-- **A step is bridged.** -/
theorem next_bridges : gap.Bridges Token.Like next lexer := by
  by_cases hends : lexer.pending = [] ∧ BlankLines lexer.input
  · obtain ⟨hpending, hblank⟩ := hends
    cases hmode : lexer.mode with
    | markup => exact .across hmode (next_across gap hmode hpending hblank)
    | raw => exact .spent hmode ((spent_withTail hblank).next hmode)
  · have hinput : lexer.pending = [] → ¬ BlankLines lexer.input := not_and.mp hends
    by_cases hunclosed : lexer.next.Unclosed
    · exact .unclosed hunclosed
    · exact .above fun tail htail => (next_withTail htail hinput).resolve_left hunclosed

omit gap lexer in
theorem stock_succ_of_ok {lexer after : Lexer} {token : Token} (count : Nat)
    (h : lexer.next = (.ok token, after)) :
    lexer.stock (count + 1) = stock count { after with stash := after.stash ++ [token] } := by
  rw [Lexer.stock, h]

omit gap lexer in
theorem stock_succ_of_error {lexer after : Lexer} {fault : LexicalFault} (count : Nat)
    (h : lexer.next = (.error fault, after)) : lexer.stock (count + 1) = (.error fault, after) := by
  rw [Lexer.stock, h]

theorem stock_bridges (count : Nat) : ∀ lexer : Lexer,
    gap.Bridges (fun _ _ => True) (Lexer.stock count) lexer := by
  induction count with
  | zero => exact fun _ => .above fun _ _ => rfl
  | succ count ih =>
      intro lexer
      have hmode := next_mode lexer
      cases next_bridges gap lexer with
      | unclosed stops =>
          obtain ⟨fault, hfault, hcause⟩ := stops
          rcases hstep : lexer.next with ⟨other | token, after⟩
          · rw [hstep] at hfault
            cases hfault
            exact .unclosed ⟨_, congrArg Prod.fst (stock_succ_of_error count hstep), hcause⟩
          · rw [hstep] at hfault
            cases hfault
      | above answer =>
          rcases hstep : lexer.next with ⟨fault | token, after⟩
          · rw [hstep] at answer
            refine .above fun tail htail => ?_
            rw [stock_succ_of_error count (answer tail htail), stock_succ_of_error count hstep]
            rfl
          · rw [hstep] at answer hmode
            have hstock := stock_succ_of_ok count hstep
            have hstock' : ∀ tail, EndsLine tail → (lexer.withTail tail).stock (count + 1)
                = ({ after with stash := after.stash ++ [token] }.withTail tail).stock count :=
              fun tail htail => stock_succ_of_ok count (answer tail htail)
            -- the rest of the tokens is read behind this one
            cases ih { after with stash := after.stash ++ [token] } with
            | unclosed stops => exact .unclosed (hstock ▸ stops)
            | above rest =>
                refine .above fun tail htail => ?_
                rw [hstock' tail htail, hstock]
                exact rest tail htail
            | across mode rest =>
                refine .across (hmode.symm.trans mode) ?_
                rw [hstock' _ gap.endsLine_rest, hstock' _ gap.endsLine_wide]
                exact rest
            | spent mode left =>
                refine .spent (hmode.symm.trans mode) ?_
                rw [hstock' _ gap.endsLine_rest]
                exact left
      | across mode answer =>
          refine .across mode ?_
          rw [Lexer.stock, Lexer.stock]
          generalize (lexer.withTail gap.rest).next = outcome at answer
          generalize (lexer.withTail gap.wide).next = outcome' at answer
          cases answer with
          | error causes lexers => exact .error causes lexers
          | ok results lexers => exact stock_like count (lexers.stash_append results)
      | spent mode left =>
          refine .spent mode ?_
          have hmode' : (lexer.withTail gap.rest).next.2.mode = .raw :=
            (next_mode _).trans mode
          rcases hstep : (lexer.withTail gap.rest).next with ⟨fault | token, after⟩
          · rw [hstep] at left
            rw [stock_succ_of_error count hstep]
            exact left
          · rw [hstep] at left hmode'
            rw [stock_succ_of_ok count hstep]
            have hleft : gap.Spent { after with stash := after.stash ++ [token] } := left
            exact hleft.stock count hmode'

/-- **A look ahead is bridged**, however far it goes. -/
theorem peekAt_bridges (offset : Nat) :
    gap.Bridges Token.Like (fun lexer => lexer.peekAt offset) lexer := by
  have hpeek : ∀ tail, (lexer.withTail tail).peekAt offset = looked offset
      ((lexer.withTail tail).stock (offset + 1 - (lexer.deferred.length + lexer.stash.length))) :=
    fun tail => peekAt_eq_looked (lexer.withTail tail) offset
  cases stock_bridges gap (offset + 1 - (lexer.deferred.length + lexer.stash.length)) lexer with
  | unclosed stops =>
      obtain ⟨fault, hfault, hcause⟩ := stops
      refine .unclosed ⟨fault, ?_, hcause⟩
      rw [peekAt_eq_looked]
      rcases hstock : lexer.stock _ with ⟨other | _, after⟩
      · rw [hstock] at hfault
        cases hfault
        rfl
      · rw [hstock] at hfault
        cases hfault
  | above answer =>
      refine .above fun tail htail => ?_
      rw [hpeek, answer tail htail, peekAt_eq_looked]
      rcases lexer.stock _ with ⟨fault | _, after⟩ <;> rfl
  | across mode answer =>
      refine .across mode ?_
      rw [hpeek, hpeek]
      exact looked_like answer offset
  | spent mode left =>
      refine .spent mode ?_
      rw [peekAt_after]
      exact left

/-- **Taking a token is bridged.** -/
theorem advance_bridges : gap.Bridges Token.Like advance lexer := by
  cases hdeferred : lexer.deferred with
  | cons token deferred =>
      refine .above fun tail _ => ?_
      rw [advance, advance, show (lexer.withTail tail).deferred = lexer.deferred from rfl,
        hdeferred]
      rfl
  | nil =>
      cases hstash : lexer.stash with
      | cons token stash =>
          refine .above fun tail _ => ?_
          rw [advance, advance, show (lexer.withTail tail).deferred = lexer.deferred from rfl,
            hdeferred, show (lexer.withTail tail).stash = lexer.stash from rfl, hstash]
          rfl
      | nil =>
          have hadvance : ∀ tail, (lexer.withTail tail).advance = (lexer.withTail tail).next := by
            intro tail
            rw [advance, show (lexer.withTail tail).deferred = [] from hdeferred,
              show (lexer.withTail tail).stash = [] from hstash]
          have hadvance' : lexer.advance = lexer.next := by rw [advance, hdeferred, hstash]
          cases next_bridges gap lexer with
          | unclosed stops => exact .unclosed (hadvance' ▸ stops)
          | above answer =>
              refine .above fun tail htail => ?_
              rw [hadvance, hadvance']
              exact answer tail htail
          | across mode answer =>
              refine .across mode ?_
              rw [hadvance, hadvance]
              exact answer
          | spent mode left =>
              refine .spent mode ?_
              rw [hadvance]
              exact left

end Bridges

end Stencil
