import Stencil.Proofs.Lexer.Progress

/-! # The tokens ahead — what a reader of the stream will see

    A reader takes tokens and looks at tokens; both may scan the text, and a
    look leaves what it scanned in the stash.  So the tokens ahead of a lexer
    are those in the stash, followed by those that its text gives (`Ahead`).
    A look leaves them as they are and a step takes the first one off, whatever
    was scanned before and whatever is scanned now.

    The bridge is that scanning sees neither the stash nor the deferred tokens
    (`next_withQueues`): the text gives the same tokens before and after a
    look. -/

namespace Stencil.Lexer

variable {lexer after : Lexer} {tokens : List Token}

/-! ## Scanning does not see the queues of the reader -/

/-- A lexer with other deferred tokens and another stash. -/
def withQueues (lexer : Lexer) (deferred stash : List Token) : Lexer :=
  { lexer with deferred, stash }

/-- An outcome with other deferred tokens and another stash. -/
def requeued {α : Type} (deferred stash : List Token) (outcome : Outcome α) : Outcome α :=
  (outcome.1, outcome.2.withQueues deferred stash)

section

variable (lexer) (deferred stash : List Token)

theorem placeLine_withQueues (width : Nat) :
    (lexer.withQueues deferred stash).placeLine width
      = requeued deferred stash (lexer.placeLine width) := by
  dsimp only [placeLine, withQueues]
  split
  · rfl
  · split <;> rfl

theorem readLineBreak_withQueues (text : List Char) :
    (lexer.withQueues deferred stash).readLineBreak text
      = requeued deferred stash (lexer.readLineBreak text) := by
  have hplace := placeLine_withQueues (lexer.enterLine text) deferred stash
  dsimp only [readLineBreak, enterLine, withQueues] at *
  split
  · rfl
  · split
    · rfl
    · split
      · rfl
      · exact hplace _

theorem readAttributes_withQueues (text : List Char) :
    (lexer.withQueues deferred stash).readAttributes text
      = requeued deferred stash (lexer.readAttributes text) := by
  dsimp only [readAttributes, withQueues]
  split <;> rfl

theorem readEnd_withQueues :
    (lexer.withQueues deferred stash).readEnd = requeued deferred stash lexer.readEnd := by
  dsimp only [readEnd, withQueues]
  split <;> rfl

theorem readForm_withQueues :
    (lexer.withQueues deferred stash).readForm = requeued deferred stash lexer.readForm := by
  dsimp only [readForm, withQueues]
  split <;> rfl

theorem scanLine_withQueues :
    (lexer.withQueues deferred stash).scanLine = requeued deferred stash lexer.scanLine := by
  have hbreak := readLineBreak_withQueues lexer deferred stash
  have hattributes := readAttributes_withQueues lexer deferred stash
  have hend := readEnd_withQueues lexer deferred stash
  have hform := readForm_withQueues lexer deferred stash
  dsimp only [scanLine, withQueues] at *
  split
  · exact hend
  · exact hbreak _
  · split
    · rfl
    · split
      · exact hattributes _
      · exact hform

end

theorem skipBlankLines_withQueues (deferred stash : List Token) (fuel : Nat) :
    ∀ lexer : Lexer, (lexer.withQueues deferred stash).skipBlankLines fuel
      = (lexer.skipBlankLines fuel).withQueues deferred stash := by
  induction fuel with
  | zero => intro lexer; rfl
  | succ fuel ih =>
      intro lexer
      dsimp only [skipBlankLines, withQueues] at *
      split
      · next rest hrest => exact ih { lexer with input := rest, line := lexer.line + 1 }
      · rfl

theorem scan_withQueues (lexer : Lexer) (deferred stash : List Token) :
    (lexer.withQueues deferred stash).scan = requeued deferred stash lexer.scan := by
  have hline := scanLine_withQueues lexer deferred stash
  dsimp only [scan, withQueues] at *
  split
  · exact hline
  · next rest hrest =>
      split
      · rfl
      · have hskip := skipBlankLines_withQueues deferred stash rest.length
          { lexer with input := rest, line := lexer.line + 1 }
        exact (congrArg scanLine hskip).trans (scanLine_withQueues _ deferred stash)

/-- **Scanning does not see the queues of the reader.** -/
theorem next_withQueues (lexer : Lexer) (deferred stash : List Token) :
    (lexer.withQueues deferred stash).next = requeued deferred stash lexer.next := by
  have hscan := scan_withQueues lexer deferred stash
  dsimp only [next, withQueues] at *
  split
  · rfl
  · exact hscan

/-- Scanning leaves the queues of the reader as they are. -/
theorem next_queues {result : Except LexicalFault Token} (h : lexer.next = (result, after)) :
    after.deferred = lexer.deferred ∧ after.stash = lexer.stash := by
  have hsame : lexer.next = requeued lexer.deferred lexer.stash lexer.next :=
    next_withQueues lexer lexer.deferred lexer.stash
  rw [h] at hsame
  have hafter : after = after.withQueues lexer.deferred lexer.stash := congrArg Prod.snd hsame
  rw [hafter]
  exact ⟨rfl, rfl⟩

/-! ## The tokens that a text gives -/

/-- Scanning from one lexer gives a list of tokens, up to another lexer. -/
inductive Reads : Lexer → List Token → Lexer → Prop where
  | done (lexer : Lexer) : Reads lexer [] lexer
  | take {lexer after last : Lexer} {token : Token} {tokens : List Token} :
      lexer.next = (.ok token, after) → Reads after tokens last →
      Reads lexer (token :: tokens) last

theorem Reads.append {first middle last : Lexer} {more : List Token}
    (h : Reads first tokens middle) (hmore : Reads middle more last) :
    Reads first (tokens ++ more) last := by
  induction h with
  | done _ => exact hmore
  | take hnext _ ih => exact .take hnext (ih hmore)

/-- Tokens that wait come out one by one. -/
theorem reads_pending {pending waiting : List Token} :
    ∀ {lexer : Lexer}, lexer.pending = pending ++ waiting →
      Reads lexer pending { lexer with pending := waiting } := by
  induction pending with
  | nil =>
      rintro lexer rfl
      exact .done _
  | cons token pending ih =>
      intro lexer h
      have hnext : lexer.next = (.ok token, { lexer with pending := pending ++ waiting }) := by
        unfold next
        rw [h]
        rfl
      exact .take hnext (ih rfl)

/-- A lexer with other queues of the reader gives the same tokens. -/
theorem Reads.withQueues {first last : Lexer} (h : Reads first tokens last)
    (deferred stash : List Token) :
    Reads (first.withQueues deferred stash) tokens (last.withQueues deferred stash) := by
  induction h with
  | done lexer => exact .done _
  | take hnext _ ih =>
      refine .take ?_ ih
      rw [next_withQueues, hnext]
      rfl

/-- The number of tokens before the end of the stream is at most the potential. -/
theorem Reads.countOpen_le {first last : Lexer} (h : Reads first tokens last) :
    countOpen tokens + last.potential ≤ first.potential := by
  induction h with
  | done lexer => simp
  | @take lexer after last token tokens hnext _ ih =>
      have hprogress := next_progress hnext
      by_cases heos : token.kind = .eos
      · have := hprogress.le
        rw [countOpen_cons_of_eos heos]
        omega
      · have := hprogress.lt heos
        rw [countOpen_cons_of_ne heos]
        omega

/-! ## Looking and taking -/

/-- The tokens ahead of a lexer with nothing deferred: those in the stash, then tokens that its
    text gives. -/
def Ahead (lexer : Lexer) (tokens : List Token) : Prop :=
  lexer.deferred = [] ∧ ∃ scanned last, Reads lexer scanned last ∧ tokens = lexer.stash ++ scanned

/-- A lexer that has looked at nothing has the tokens ahead that its text gives. -/
theorem ahead_of_reads {last : Lexer} (hdeferred : lexer.deferred = []) (hstash : lexer.stash = [])
    (h : Reads lexer tokens last) : lexer.Ahead tokens :=
  ⟨hdeferred, tokens, last, h, by rw [hstash, List.nil_append]⟩

/-- Stocking moves tokens from the text to the stash: those ahead stay the same. -/
theorem stock_ahead (count : Nat) :
    ∀ {lexer : Lexer}, lexer.Ahead tokens → count + lexer.stash.length ≤ tokens.length →
      ∃ after, lexer.stock count = (.ok (), after) ∧ after.Ahead tokens
        ∧ after.stash.length = count + lexer.stash.length := by
  induction count with
  | zero => intro lexer h _; exact ⟨lexer, rfl, h, (Nat.zero_add _).symm⟩
  | succ count ih =>
      rintro lexer ⟨hdeferred, scanned, last, hreads, rfl⟩ hle
      cases hreads with
      | done _ =>
          -- all tokens ahead are in the stash already
          rw [List.append_nil] at hle
          omega
      | @take _ after _ token scanned hnext hreads =>
          obtain ⟨hdefer, hstash⟩ := next_queues hnext
          -- the scanned token moves behind the stash, where it was ahead
          have hahead : Ahead { after with stash := after.stash ++ [token] }
              (lexer.stash ++ token :: scanned) := by
            refine ⟨hdefer.trans hdeferred, scanned, _,
              hreads.withQueues after.deferred (after.stash ++ [token]), ?_⟩
            rw [hstash, List.append_assoc]
            rfl
          have hlength : (after.stash ++ [token]).length = lexer.stash.length + 1 := by
            rw [hstash, List.length_append]
            rfl
          obtain ⟨stocked, hstock, hall, hcount⟩ := ih hahead (by
            show count + (after.stash ++ [token]).length ≤ _
            omega)
          refine ⟨stocked, ?_, hall, ?_⟩
          · rw [stock, hnext]
            exact hstock
          · rw [hcount]
            show count + (after.stash ++ [token]).length = _
            omega

/-- A look at a token that waits, or at the one behind those that wait. -/
theorem peekAt_eq_ok {token : Token} {offset : Nat} (h : lexer.peekAt offset = (.ok token, after))
    (hle : offset ≤ (lexer.deferred ++ lexer.stash).length) :
    (lexer.deferred ++ lexer.stash)[offset]? = some token ∧ after = lexer
      ∨ offset = (lexer.deferred ++ lexer.stash).length
        ∧ ∃ scanned, lexer.next = (.ok token, scanned)
          ∧ after = { scanned with stash := lexer.stash ++ [token] } := by
  rw [Lexer.peekAt, ← List.length_append] at h
  rcases Nat.lt_or_eq_of_le hle with hlt | heq
  · rw [Nat.sub_eq_zero_of_le hlt] at h
    obtain ⟨htoken, rfl⟩ := Prod.mk.inj h
    refine .inl ⟨?_, rfl⟩
    rw [← Except.ok.inj htoken, List.getD_eq_getElem?_getD, List.getElem?_eq_getElem hlt]
    rfl
  · have hone : offset + 1 - (lexer.deferred ++ lexer.stash).length = 1 := by omega
    rw [hone, stock] at h
    rcases hnext : lexer.next with ⟨fault | found, scanned⟩
    · rw [hnext] at h
      cases h
    · rw [hnext] at h
      obtain ⟨hdeferred, hstash⟩ := next_queues hnext
      obtain ⟨htoken, rfl⟩ := Prod.mk.inj h
      -- the token that was read stands behind all that waited
      have hfound : (scanned.deferred ++ (scanned.stash ++ [found])).getD offset
          ({ scanned with stash := scanned.stash ++ [found] }.token .eos) = found := by
        rw [← List.append_assoc, hdeferred, hstash, heq, List.getD_eq_getElem?_getD,
          List.getElem?_concat_length]
        rfl
      obtain rfl : found = token := hfound.symm.trans (Except.ok.inj htoken)
      exact .inr ⟨heq, scanned, rfl, by rw [hstash]⟩

/-- **A look** gives a token that is ahead and leaves the tokens ahead as they are. -/
theorem Ahead.peekAt (h : lexer.Ahead tokens) {offset : Nat} {token : Token}
    (htoken : tokens[offset]? = some token) :
    ∃ after, lexer.peekAt offset = (.ok token, after) ∧ after.Ahead tokens := by
  obtain ⟨hlt, hget⟩ := List.getElem?_eq_some_iff.mp htoken
  have hstash : lexer.stash.length ≤ tokens.length := by
    obtain ⟨-, scanned, last, -, rfl⟩ := h
    rw [List.length_append]
    omega
  obtain ⟨after, hstock, hahead, hlength⟩ :=
    stock_ahead (offset + 1 - (lexer.deferred.length + lexer.stash.length)) h (by omega)
  refine ⟨after, ?_, hahead⟩
  obtain ⟨hdeferred, scanned, last, -, rfl⟩ := hahead
  have hoffset : offset < after.stash.length := by
    rw [h.1] at hlength
    simp only [List.length_nil] at hlength
    omega
  rw [List.getElem?_append_left hoffset] at htoken
  unfold Lexer.peekAt
  rw [hstock]
  simp only [hdeferred, List.nil_append, List.getD_eq_getElem?_getD, htoken, Option.getD_some]

/-- **A step** gives the first token ahead and takes it off. -/
theorem Ahead.advance {token : Token} (h : lexer.Ahead (token :: tokens)) :
    ∃ after, lexer.advance = (.ok token, after) ∧ after.Ahead tokens := by
  obtain ⟨hdeferred, scanned, last, hreads, htokens⟩ := h
  unfold Lexer.advance
  rw [hdeferred]
  rcases hstash : lexer.stash with - | ⟨first, stash⟩
  · -- nothing was looked at: the token comes out of the text
    rw [hstash, List.nil_append] at htokens
    subst htokens
    cases hreads with
    | @take _ after _ _ _ hnext hreads =>
        obtain ⟨hdefer, hsame⟩ := next_queues hnext
        exact ⟨after, hnext, ahead_of_reads (hdefer.trans hdeferred) (hsame.trans hstash) hreads⟩
  · rw [hstash] at htokens
    obtain ⟨rfl, rfl⟩ := List.cons.inj htokens
    exact ⟨_, rfl, rfl, scanned, _, hreads.withQueues [] stash, rfl⟩

/-- The potential of a lexer bounds the number of tokens ahead of it that do not end the
    stream. -/
theorem Ahead.countOpen_le (h : lexer.Ahead tokens) : countOpen tokens ≤ lexer.potential := by
  obtain ⟨hdeferred, scanned, last, hreads, rfl⟩ := h
  have := (hreads.withQueues [] []).countOpen_le
  simp only [potential, Lexer.withQueues, countOpen_nil, countOpen_append] at *
  omega

end Stencil.Lexer
