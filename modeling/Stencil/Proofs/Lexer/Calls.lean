import Stencil.Proofs.Lexer.Ahead
import Stencil.Proofs.Lexer.Levels
import Stencil.Proofs.Text.Lines

/-! # Calls — a session with a lexer

    A reader of a stream makes one call after another: it takes a token, looks
    ahead, puts a token in, or switches the way in which lines are read.  A call
    that fails leaves the lexer where it stopped, and the reader may go on.
    `run` gives every call its answer, so a statement about all lists of calls
    is one about every state that a lexer can be in.

    The first of them is about taking alone (`taken_ends`): whatever switches lie
    in between, a call fails for one of two causes, and a session without a
    failure comes to the end of the stream within twice the length of the
    source, and stays there. -/

namespace Stencil

/-- The tokens of these kinds name another template. -/
def TokenKind.NamesTemplate (kind : TokenKind) : Prop := kind = .extends ∨ kind = .include

namespace Lexer

/-- What a reader can ask of a lexer. -/
inductive Call where
  /-- The next token, which is taken. -/
  | advance
  /-- The token at a distance, which stays where it is. -/
  | lookahead (distance : Int)
  /-- Puts a token in. -/
  | defer (token : Token)
  /-- Reads lines in another way from here on. -/
  | switch (mode : Mode)
deriving Repr, DecidableEq

/-- The answer to a call: a token if the call asks for one, or why it failed. -/
abbrev Answer := Except LexicalFault (Option Token)

/-- The answer to a call, and the lexer after it. -/
def Call.perform : Call → Lexer → Answer × Lexer
  | advance, lexer => (lexer.advance.1.map some, lexer.advance.2)
  | lookahead distance, lexer =>
      ((lexer.lookahead distance).1.map some, (lexer.lookahead distance).2)
  | defer token, lexer => (.ok none, lexer.defer token)
  | switch mode, lexer => (.ok none, { lexer with mode })

/-- Every call of a session with its answer, and the lexer after the last one. -/
def run : List Call → Lexer → List (Call × Answer) × Lexer
  | [], lexer => ([], lexer)
  | call :: calls, lexer =>
      let (answer, after) := call.perform lexer
      let (answers, last) := run calls after
      ((call, answer) :: answers, last)

/-- The token that a call took. -/
def takenBy : Call × Answer → List Token
  | (.advance, .ok (some token)) => [token]
  | _ => []

/-- The tokens that a session took, in order. -/
def taken (answers : List (Call × Answer)) : List Token := answers.flatMap takenBy

variable {lexer after : Lexer} {calls : List Call} {token : Token} {fault : LexicalFault}

theorem run_cons (call : Call) (calls : List Call) (lexer : Lexer) :
    (run (call :: calls) lexer).1
      = (call, (call.perform lexer).1) :: (run calls (call.perform lexer).2).1 :=
  rfl

theorem perform_advance_of_ok (h : lexer.advance = (.ok token, after)) :
    Call.advance.perform lexer = (.ok (some token), after) := by
  rw [Call.perform, h]
  rfl

theorem perform_advance_of_error (h : lexer.advance = (.error fault, after)) :
    Call.advance.perform lexer = (.error fault, after) := by
  rw [Call.perform, h]
  rfl

/-- **What every call keeps, a session keeps.**  The invariant is one of the tokens taken so far and
    the lexer. -/
theorem run_keeps {I : List Token → Lexer → Prop}
    (hstep : ∀ call ∈ calls, ∀ tokens lexer, I tokens lexer →
      I (tokens ++ takenBy (call, (call.perform lexer).1)) (call.perform lexer).2) :
    ∀ (tokens : List Token) {lexer : Lexer}, I tokens lexer →
      I (tokens ++ taken (run calls lexer).1) (run calls lexer).2 := by
  induction calls with
  | nil =>
      intro tokens lexer h
      rwa [run, taken, List.flatMap_nil, List.append_nil]
  | cons call calls ih =>
      intro tokens lexer h
      have hcall := hstep call List.mem_cons_self tokens lexer h
      have hrest := ih (fun call hcall => hstep call (List.mem_cons_of_mem _ hcall)) _ hcall
      rwa [List.append_assoc] at hrest

/-- Every answer of a session was given in a state that the invariant holds of. -/
theorem run_answers {I : Lexer → Prop}
    (hstep : ∀ call ∈ calls, ∀ lexer, I lexer → I (call.perform lexer).2) :
    ∀ {lexer : Lexer}, I lexer → ∀ entry ∈ (run calls lexer).1,
      entry.1 ∈ calls ∧ ∃ state, I state ∧ entry.2 = (entry.1.perform state).1 := by
  induction calls with
  | nil => exact fun _ entry hentry => nomatch hentry
  | cons call calls ih =>
      intro lexer h entry hentry
      rw [run_cons] at hentry
      rcases List.mem_cons.mp hentry with rfl | hentry
      · exact ⟨List.mem_cons_self, lexer, h, rfl⟩
      · have hrest := ih (fun call hcall => hstep call (List.mem_cons_of_mem _ hcall))
          (hstep call List.mem_cons_self lexer h) entry hentry
        exact ⟨List.mem_cons_of_mem _ hrest.1, hrest.2⟩

/-! ## The states of a session -/

/-- A call that puts in no token that names another template. -/
def Call.Plain (call : Call) : Prop := ∀ token, call = .defer token → ¬ token.kind.NamesTemplate

/-- The states that plain calls lead to. -/
inductive Reached (start : Lexer) : Lexer → Prop where
  | start : Reached start start
  | call {lexer : Lexer} (h : Reached start lexer) (call : Call) (plain : call.Plain) :
      Reached start (call.perform lexer).2

/-- Some plain calls show a token that names another template. -/
def Mentions (start : Lexer) : Prop :=
  ∃ (lexer : Lexer) (call : Call) (token : Token), Reached start lexer ∧ call.Plain
    ∧ (call.perform lexer).1 = .ok (some token) ∧ token.kind.NamesTemplate

theorem Reached.advance {start : Lexer} (h : Reached start lexer) :
    Reached start lexer.advance.2 :=
  h.call .advance nofun

theorem Reached.defer {start : Lexer} (h : Reached start lexer)
    (hplain : ¬ token.kind.NamesTemplate) :
    Reached start (lexer.defer token) := by
  refine h.call (.defer token) ?_
  rintro other ⟨rfl⟩
  exact hplain

theorem Reached.switch {start : Lexer} (h : Reached start lexer) (mode : Mode) :
    Reached start { lexer with mode } :=
  h.call (.switch mode) nofun

/-- A look past some tokens is one at a distance. -/
theorem lookahead_succ (lexer : Lexer) (offset : Nat) :
    lexer.lookahead (offset + 1 : Nat) = lexer.peekAt offset := by
  rw [Lexer.lookahead, if_neg (by omega)]
  rfl

theorem Reached.peekAt {start : Lexer} (h : Reached start lexer) (offset : Nat) :
    Reached start (lexer.peekAt offset).2 := by
  rw [← lookahead_succ]
  exact h.call (.lookahead (offset + 1 : Nat)) nofun

/-- What a look shows, plain calls show. -/
theorem Reached.mentions {start : Lexer} (h : Reached start lexer) {offset : Nat}
    (hpeek : lexer.peekAt offset = (.ok token, after)) (hnames : token.kind.NamesTemplate) :
    Mentions start := by
  refine ⟨lexer, .lookahead (offset + 1 : Nat), token, h, nofun, ?_, hnames⟩
  show (lexer.lookahead (offset + 1 : Nat)).1.map some = _
  rw [lookahead_succ, hpeek]
  rfl

/-! ## Taking tokens alone -/

/-- A call that takes a token or switches. -/
def Call.Takes (call : Call) : Prop := call = .advance ∨ ∃ mode, call = .switch mode

/-- A lexer whose reader has looked at nothing and put nothing in. -/
structure Untouched (lexer : Lexer) : Prop where
  deferred : lexer.deferred = []
  stash : lexer.stash = []
  pending : ∀ t ∈ lexer.pending, t.Follows

theorem untouched_ofSource (source : String) (colons : Bool) :
    (ofSource source colons).Untouched :=
  ⟨rfl, rfl, nofun⟩

theorem Untouched.advance (h : lexer.Untouched) : lexer.advance = lexer.next := by
  unfold Lexer.advance
  rw [h.deferred, h.stash]

theorem Untouched.next (h : lexer.Untouched) (hnext : lexer.next = (.ok token, after)) :
    after.Untouched :=
  have hqueues := next_queues hnext
  ⟨hqueues.1.trans h.deferred, hqueues.2.trans h.stash, next_follows h.pending hnext⟩

/-- A call on an untouched lexer leaves it untouched, and gives a token or fails for one of two
    causes if it takes. -/
theorem Untouched.perform (h : lexer.Untouched) {call : Call} (hcall : call.Takes) :
    (call.perform lexer).2.Untouched
      ∧ (call = .advance → (∃ token, (call.perform lexer).1 = .ok (some token))
        ∨ ∃ fault, (call.perform lexer).1 = .error fault
          ∧ (fault.cause = .mixedIndentation ∨ fault.cause = .unterminatedAttributes)) := by
  rcases hcall with rfl | ⟨mode, rfl⟩
  · rcases hnext : lexer.next with ⟨fault | token, after⟩
    · rw [perform_advance_of_error (h.advance.trans hnext)]
      have hqueues := next_queues hnext
      have hfails := next_fault hnext
      exact ⟨⟨hqueues.1.trans h.deferred, hqueues.2.trans h.stash,
        fun t ht => h.pending t (hfails.pending ▸ ht)⟩, fun _ => .inr ⟨fault, rfl, hfails.cause⟩⟩
    · rw [perform_advance_of_ok (h.advance.trans hnext)]
      exact ⟨h.next hnext, fun _ => .inl ⟨token, rfl⟩⟩
  · exact ⟨⟨h.deferred, h.stash, h.pending⟩, fun hne => nomatch hne⟩

/-- At the end of the stream, every token that is taken says so. -/
theorem Untouched.taken_of_finished (h : lexer.Untouched) (hfinished : lexer.Finished)
    (hcalls : ∀ call ∈ calls, call.Takes) : ∀ t ∈ taken (run calls lexer).1, t.kind = .eos := by
  have hkeeps := run_keeps
    (I := fun tokens lexer => (∀ t ∈ tokens, t.kind = .eos) ∧ lexer.Finished ∧ lexer.Untouched)
    (fun call hcall tokens lexer ⟨htokens, hfinished, huntouched⟩ => by
      rcases hcalls call hcall with rfl | ⟨mode, rfl⟩
      · rw [perform_advance_of_ok (huntouched.advance.trans hfinished.next)]
        refine ⟨fun t ht => (List.mem_append.mp ht).elim (htokens t) fun ht => ?_, hfinished,
          huntouched⟩
        obtain rfl := List.mem_singleton.mp ht
        rfl
      · exact ⟨fun t ht => htokens t (List.append_nil tokens ▸ ht),
          ⟨hfinished.input, hfinished.levels, hfinished.pending⟩,
          ⟨huntouched.deferred, huntouched.stash, huntouched.pending⟩⟩)
    [] ⟨nofun, hfinished, h⟩
  exact hkeeps.1

/-- A session without a failure takes a token with every call for one, and no more tokens before the
    end of the stream than the potential of the lexer; from there on it takes that end alone. -/
theorem Untouched.taken_split (hcalls : ∀ call ∈ calls, call.Takes) :
    ∀ {lexer : Lexer}, lexer.Untouched → (∀ entry ∈ (run calls lexer).1, entry.2.isOk) →
      (taken (run calls lexer).1).length = calls.count .advance
        ∧ ∃ others ends, taken (run calls lexer).1 = others ++ ends
          ∧ others.length ≤ lexer.potential
          ∧ (∀ t ∈ others, t.kind ≠ .eos) ∧ ∀ t ∈ ends, t.kind = .eos := by
  induction calls with
  | nil =>
      intro lexer h hok
      exact ⟨rfl, [], [], rfl, Nat.zero_le _, nofun, nofun⟩
  | cons call calls ih =>
      intro lexer h hok
      have htakes := hcalls call List.mem_cons_self
      have hcalls' : ∀ call ∈ calls, call.Takes := fun call hcall =>
        hcalls call (List.mem_cons_of_mem _ hcall)
      obtain ⟨hafter, hanswer⟩ := h.perform htakes
      rw [run_cons] at hok ⊢
      obtain ⟨hlength, others, ends, hsplit, hbound, hothers, hends⟩ :=
        ih hcalls' hafter fun entry hentry => hok entry (List.mem_cons_of_mem _ hentry)
      rcases htakes with rfl | ⟨mode, rfl⟩
      · rcases hnext : lexer.next with ⟨fault | token, after⟩
        · -- a failure is excluded
          have hcall := hok _ List.mem_cons_self
          rw [perform_advance_of_error (h.advance.trans hnext)] at hcall
          exact nomatch hcall
        · rw [perform_advance_of_ok (h.advance.trans hnext)] at *
          refine ⟨?_, ?_⟩
          · rw [List.count_cons_self, ← hlength]
            rfl
          · by_cases heos : token.kind = .eos
            · -- the stream has ended, so nothing else is taken from here on
              obtain ⟨hfinished, rfl⟩ := next_eos h.pending hnext heos
              refine ⟨[], token :: taken (run calls after).1, rfl, Nat.zero_le _,
                nofun, ?_⟩
              rintro t (- | ⟨-, ht⟩)
              · exact heos
              · exact h.taken_of_finished hfinished hcalls' t ht
            · -- any other token lowers the potential
              have hlt := (next_progress hnext).lt heos
              refine ⟨token :: others, ends, congrArg (token :: ·) hsplit, ?_, ?_, hends⟩
              · rw [List.length_cons]
                exact Nat.lt_of_le_of_lt hbound hlt
              · rintro t (- | ⟨-, ht⟩)
                · exact heos
                · exact hothers t ht
      · refine ⟨?_, others, ends, hsplit, hbound, hothers, hends⟩
        have hne : Call.switch mode ≠ .advance := nofun
        rw [List.count_cons_of_ne hne]
        exact hlength

/-- A lexer at the start of a source has twice its length as potential, at most. -/
theorem potential_ofSource_le (source : String) (colons : Bool) :
    (ofSource source colons).potential ≤ 2 * source.length := by
  have := Text.normalizeNewlines_length_le source.toList
  rw [String.length_toList] at this
  simp only [potential, ofSource, List.length_nil, countOpen_nil]
  omega

/-- **Taking comes to an end.**  Whatever switches lie between the calls that take a token, each of
    these gives one or fails, for one of two causes.  If none fails, then at most twice as many
    tokens as the source has characters come before the end of the stream, and every later one
    says that it has ended. -/
theorem taken_ends (source : String) (colons : Bool) {calls : List Call}
    (hcalls : ∀ call ∈ calls, call.Takes) :
    (∀ answer, (.advance, answer) ∈ (run calls (ofSource source colons)).1 →
        (∃ token, answer = .ok (some token))
          ∨ ∃ fault, answer = .error fault
            ∧ (fault.cause = .mixedIndentation ∨ fault.cause = .unterminatedAttributes))
      ∧ ((∀ entry ∈ (run calls (ofSource source colons)).1, entry.2.isOk) →
        (taken (run calls (ofSource source colons)).1).length = calls.count .advance
          ∧ ∃ others ends, taken (run calls (ofSource source colons)).1 = others ++ ends
            ∧ others.length ≤ 2 * source.length
            ∧ (∀ t ∈ others, t.kind ≠ .eos) ∧ ∀ t ∈ ends, t.kind = .eos) := by
  have hstart := untouched_ofSource source colons
  refine ⟨fun answer hanswer => ?_, fun hok => ?_⟩
  · obtain ⟨hcall, state, huntouched, hgiven⟩ := run_answers (I := Untouched)
      (fun call hcall lexer h => (h.perform (hcalls call hcall)).1) hstart _ hanswer
    replace hgiven : answer = (Call.advance.perform state).1 := hgiven
    rw [hgiven]
    exact (huntouched.perform (hcalls _ hcall)).2 rfl
  · obtain ⟨hlength, others, ends, hsplit, hbound, hothers, hends⟩ :=
      hstart.taken_split hcalls hok
    exact ⟨hlength, others, ends, hsplit,
      Nat.le_trans hbound (potential_ofSource_le source colons), hothers, hends⟩

/-- The calls that take a raw body below a tag, and four tokens more. -/
def rawBodyCalls : List Call :=
  [.advance, .advance, .switch .raw, .advance, .switch .markup, .advance, .advance, .advance,
   .advance]

theorem taken_ends_rawBody :
    (∀ call ∈ rawBodyCalls, call.Takes)
      ∧ (∀ entry ∈ (run rawBodyCalls (ofSource "script\n  // (a\np")).1, entry.2.isOk)
      ∧ (taken (run rawBodyCalls (ofSource "script\n  // (a\np")).1).length = 7
      ∧ ∃ others ends, taken (run rawBodyCalls (ofSource "script\n  // (a\np")).1 = others ++ ends
          ∧ others.length ≤ 2 * "script\n  // (a\np".length
          ∧ (∀ t ∈ others, t.kind ≠ .eos) ∧ ∀ t ∈ ends, t.kind = .eos := by
  have hcalls : ∀ call ∈ rawBodyCalls, call.Takes := by
    simp [rawBodyCalls, Call.Takes]
  have hok : ∀ entry ∈ (run rawBodyCalls (ofSource "script\n  // (a\np")).1, entry.2.isOk := by
    decide +kernel
  exact ⟨hcalls, hok, (taken_ends "script\n  // (a\np" false hcalls).2 hok⟩

end Lexer

end Stencil
