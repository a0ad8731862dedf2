import Stencil.Proofs.Lexer.Calls
import Mathlib.Data.Stream.Init

/-! # Transparency — one stream behind three queues

    Deferred tokens, the stash and the pending tokens stand before a text that is
    scanned only on demand.  A reader need not know: it could as well read from
    a machine that holds the deferred tokens and, behind them, the infinite
    stream of all tokens that the text will ever give (`Reference`).

    The bridge is `Lexer.reference`, which forgets where the tokens of a lexer
    wait.  Scanning keeps it (`stock_reference`), so looking ahead cannot be
    seen, and every call that succeeds does to it what the machine does
    (`perform_reference`). -/

namespace Stencil.Lexer

variable {lexer after : Lexer} {token : Token} {call : Call} {calls : List Call}

/-! ## The stream of a lexer -/

/-- What taking gives from a lexer on: its tokens up to the end of the stream, and then that end
    over and over. -/
def stream (lexer : Lexer) : Stream' Token :=
  lexer.drain.1 ++ₛ Stream'.const (lexer.drain.2.2.token .eos)

theorem drainWith_of_eos (hadvance : lexer.advance = (.ok token, after)) (heos : token.kind = .eos)
    (fuel : Nat) : drainWith (fuel + 1) lexer = ([token], none, after) := by
  rw [drainWith, hadvance]
  exact if_pos heos

theorem drainWith_of_ne (hadvance : lexer.advance = (.ok token, after)) (hne : token.kind ≠ .eos)
    (fuel : Nat) :
    drainWith (fuel + 1) lexer = (token :: (drainWith fuel after).1, (drainWith fuel after).2) := by
  rw [drainWith, hadvance]
  exact if_neg hne

/-- Fuel beyond the potential makes no difference. -/
theorem drainWith_eq (fuel : Nat) : ∀ {other : Nat} {lexer : Lexer}, lexer.Untouched →
    lexer.potential < fuel → lexer.potential < other →
      drainWith fuel lexer = drainWith other lexer := by
  induction fuel with
  | zero => exact fun _ hlt => absurd hlt (Nat.not_lt_zero _)
  | succ fuel ih =>
      intro other lexer h hfuel hother
      obtain - | other := other
      · exact absurd hother (Nat.not_lt_zero _)
      rcases hnext : lexer.next with ⟨fault | token, after⟩
      · rw [drainWith, drainWith, h.advance.trans hnext]
      · have hadvance := h.advance.trans hnext
        by_cases heos : token.kind = .eos
        · rw [drainWith_of_eos hadvance heos, drainWith_of_eos hadvance heos]
        · have hlt := (next_progress hnext).lt heos
          have hsame : drainWith fuel after = drainWith other after :=
            ih (h.next hnext) (by omega) (by omega)
          rw [drainWith_of_ne hadvance heos, drainWith_of_ne hadvance heos, hsame]

theorem drain_of_eos (h : lexer.Untouched) (hnext : lexer.next = (.ok token, after))
    (heos : token.kind = .eos) : lexer.drain = ([token], none, after) :=
  drainWith_of_eos (h.advance.trans hnext) heos _

theorem drain_of_next (h : lexer.Untouched) (hnext : lexer.next = (.ok token, after))
    (hne : token.kind ≠ .eos) : lexer.drain = (token :: after.drain.1, after.drain.2) := by
  have hlt := (next_progress hnext).lt hne
  rw [drain, drainWith_of_ne (h.advance.trans hnext) hne,
    drainWith_eq lexer.potential (h.next hnext) hlt (Nat.lt_succ_self after.potential)]
  rfl

theorem drain_of_error {fault : LexicalFault} (h : lexer.Untouched)
    (hnext : lexer.next = (.error fault, after)) : lexer.drain = ([], some fault, after) := by
  rw [drain, drainWith, h.advance.trans hnext]

/-- The stream of a lexer that has ended says so, and never anything else. -/
theorem stream_of_finished (h : lexer.Untouched) (hfinished : lexer.Finished) :
    lexer.stream = Stream'.const (lexer.token .eos) := by
  rw [stream, drain_of_eos h hfinished.next rfl]
  exact (Stream'.const_eq _).symm

/-- **A step takes the first token off the stream.** -/
theorem stream_of_next (h : lexer.Untouched) (hnext : lexer.next = (.ok token, after)) :
    lexer.stream = Stream'.cons token after.stream := by
  by_cases heos : token.kind = .eos
  · -- the stream has ended, and the lexer stays as it is
    obtain ⟨hfinished, rfl⟩ := next_eos h.pending hnext heos
    obtain rfl : after.token .eos = token :=
      Except.ok.inj (congrArg Prod.fst (hfinished.next.symm.trans hnext))
    rw [stream_of_finished h hfinished]
    exact Stream'.const_eq _
  · rw [stream, drain_of_next h hnext heos]
    rfl

/-! ## The machine -/

/-- Deferred tokens, and the stream behind them. -/
structure Reference where
  deferred : List Token
  stream : Stream' Token

namespace Reference

/-- Everything ahead of a reader. -/
def ahead (machine : Reference) : Stream' Token := machine.deferred ++ₛ machine.stream

/-- The machine without the first token ahead. -/
def drop (machine : Reference) : Reference :=
  match machine.deferred with
  | _ :: deferred => { machine with deferred }
  | [] => { machine with stream := machine.stream.tail }

/-- What the machine does for a call: it gives the token at a distance and stays as it is, gives the
    first token and drops it, or puts a token in behind the deferred ones. -/
def perform : Call → Reference → Option Token × Reference
  | .advance, machine => (machine.ahead.head, machine.drop)
  | .lookahead distance, machine => (machine.ahead.get (distance.toNat - 1), machine)
  | .defer token, machine => (none, { machine with deferred := machine.deferred ++ [token] })
  | .switch _, machine => (none, machine)

/-- The answers of the machine to a list of calls. -/
def run : List Call → Reference → List (Option Token)
  | [], _ => []
  | call :: calls, machine =>
      let (answer, after) := machine.perform call
      answer :: run calls after

end Reference

/-! ## What a lexer is to its reader -/

/-- The text of a lexer, with its pending tokens. -/
def source (lexer : Lexer) : Lexer := lexer.withQueues [] []

/-- The machine that a lexer is to its reader: its stash is where its stream begins. -/
def reference (lexer : Lexer) : Reference :=
  ⟨lexer.deferred, lexer.stash ++ₛ lexer.source.stream⟩

theorem source_untouched (h : ∀ t ∈ lexer.pending, t.Follows) : lexer.source.Untouched :=
  ⟨rfl, rfl, h⟩

/-- A step takes the first token off the stream behind the stash. -/
theorem source_stream (h : ∀ t ∈ lexer.pending, t.Follows)
    (hnext : lexer.next = (.ok token, after)) :
    lexer.source.stream = Stream'.cons token after.source.stream := by
  refine stream_of_next (source_untouched h) ?_
  show (lexer.withQueues [] []).next = _
  rw [next_withQueues, hnext]
  rfl

/-- **Looking ahead cannot be seen**: tokens move from the text to the stash, where the stream goes
    on. -/
theorem stock_reference (count : Nat) : ∀ {lexer after : Lexer},
    (∀ t ∈ lexer.pending, t.Follows) → lexer.stock count = (.ok (), after) →
      after.reference = lexer.reference ∧ (∀ t ∈ after.pending, t.Follows)
        ∧ after.stash.length = lexer.stash.length + count := by
  induction count with
  | zero =>
      intro lexer after h hstock
      obtain rfl : lexer = after := congrArg Prod.snd hstock
      exact ⟨rfl, h, rfl⟩
  | succ count ih =>
      intro lexer after h hstock
      rw [stock] at hstock
      rcases hnext : lexer.next with ⟨fault | token, scanned⟩
      · rw [hnext] at hstock
        cases hstock
      · rw [hnext] at hstock
        obtain ⟨hdeferred, hstash⟩ := next_queues hnext
        have hscanned := next_follows h hnext
        let stocked : Lexer := { scanned with stash := scanned.stash ++ [token] }
        have hstocked : ∀ t ∈ stocked.pending, t.Follows := hscanned
        obtain ⟨hsame, hfollows, hlength⟩ := ih hstocked hstock
        refine ⟨hsame.trans ?_, hfollows, ?_⟩
        · show Reference.mk scanned.deferred
            ((scanned.stash ++ [token]) ++ₛ scanned.source.stream) = lexer.reference
          rw [reference, source_stream h hnext, hdeferred, hstash, Stream'.append_append_stream]
          rfl
        · have hlonger : stocked.stash.length = lexer.stash.length + 1 := by
            rw [← hstash]
            exact List.length_append
          omega

/-- A look gives the token that the machine has at that place. -/
theorem peekAt_reference (h : ∀ t ∈ lexer.pending, t.Follows) {offset : Nat}
    (hpeek : lexer.peekAt offset = (.ok token, after)) :
    token = lexer.reference.ahead.get offset ∧ after.reference = lexer.reference
      ∧ ∀ t ∈ after.pending, t.Follows := by
  rw [peekAt] at hpeek
  rcases hstock : lexer.stock (offset + 1 - (lexer.deferred.length + lexer.stash.length))
    with ⟨fault | _, stocked⟩
  · rw [hstock] at hpeek
    cases hpeek
  · rw [hstock] at hpeek
    obtain rfl : stocked = after := congrArg Prod.snd hpeek
    obtain ⟨hsame, hfollows, hlength⟩ := stock_reference _ h hstock
    refine ⟨?_, hsame, hfollows⟩
    -- the queues are long enough now, so the token comes from them
    have hdeferred : stocked.deferred = lexer.deferred := congrArg Reference.deferred hsame
    have hlt : offset < (stocked.deferred ++ stocked.stash).length := by
      rw [List.length_append, hdeferred, hlength]
      omega
    obtain rfl := Except.ok.inj (congrArg Prod.fst hpeek)
    rw [← hsame, List.getD_eq_getElem?_getD, List.getElem?_eq_getElem hlt, Option.getD_some,
      Reference.ahead, reference, ← Stream'.append_append_stream, Stream'.get_append_left]

/-- Taking gives the first token of the machine, which drops it. -/
theorem advance_reference (h : ∀ t ∈ lexer.pending, t.Follows)
    (hadvance : lexer.advance = (.ok token, after)) :
    token = lexer.reference.ahead.head ∧ after.reference = lexer.reference.drop
      ∧ ∀ t ∈ after.pending, t.Follows := by
  rw [advance] at hadvance
  rcases hdeferred : lexer.deferred with - | ⟨first, deferred⟩
  · rw [hdeferred] at hadvance
    rcases hstash : lexer.stash with - | ⟨first, stash⟩
    · -- the token comes out of the text
      rw [hstash] at hadvance
      obtain ⟨hdefer, hsame⟩ := next_queues hadvance
      rw [Reference.ahead, Reference.drop, reference, reference, hdefer, hsame, hdeferred, hstash,
        source_stream h hadvance]
      exact ⟨rfl, rfl, next_follows h hadvance⟩
    · -- the token was looked at before
      rw [hstash] at hadvance
      cases hadvance
      rw [Reference.ahead, Reference.drop, reference, reference, hdeferred, hstash]
      exact ⟨rfl, rfl, h⟩
  · rw [hdeferred] at hadvance
    cases hadvance
    rw [Reference.ahead, Reference.drop, reference, reference, hdeferred]
    exact ⟨rfl, rfl, h⟩

/-! ## Sessions -/

/-- A call that leaves the way in which lines are read as it is. -/
def Call.Steady (call : Call) : Prop := ∀ mode, call ≠ .switch mode

/-- **A call that succeeds does what the machine does.** -/
theorem perform_reference (h : ∀ t ∈ lexer.pending, t.Follows) (hcall : call.Steady)
    (hok : (call.perform lexer).1.isOk) :
    (call.perform lexer).1 = .ok (lexer.reference.perform call).1
      ∧ (call.perform lexer).2.reference = (lexer.reference.perform call).2
      ∧ ∀ t ∈ (call.perform lexer).2.pending, t.Follows := by
  cases call with
  | advance =>
      rcases hadvance : lexer.advance with ⟨fault | token, after⟩
      · rw [perform_advance_of_error hadvance] at hok
        cases hok
      · obtain ⟨hfirst, hsame, hfollows⟩ := advance_reference h hadvance
        rw [perform_advance_of_ok hadvance, hfirst]
        exact ⟨rfl, hsame, hfollows⟩
  | lookahead distance =>
      rcases hlook : lexer.lookahead distance with ⟨fault | token, after⟩
      · rw [Call.perform, hlook] at hok
        cases hok
      · rw [Call.perform, hlook]
        rw [lookahead] at hlook
        split at hlook
        · cases hlook
        · obtain ⟨hget, hsame, hfollows⟩ := peekAt_reference h hlook
          rw [hget]
          exact ⟨rfl, hsame, hfollows⟩
  | defer token => exact ⟨rfl, rfl, h⟩
  | switch mode => exact absurd rfl (hcall mode)

/-- A session without a failure gives the answers of the machine. -/
theorem run_reference (hcalls : ∀ call ∈ calls, call.Steady) :
    ∀ {lexer : Lexer}, (∀ t ∈ lexer.pending, t.Follows) →
      (∀ entry ∈ (run calls lexer).1, entry.2.isOk) →
        (run calls lexer).1.map Prod.snd = (Reference.run calls lexer.reference).map .ok := by
  induction calls with
  | nil => exact fun _ _ => rfl
  | cons call calls ih =>
      intro lexer h hok
      rw [run_cons] at hok ⊢
      obtain ⟨hanswer, hsame, hfollows⟩ :=
        perform_reference h (hcalls call List.mem_cons_self) (hok _ List.mem_cons_self)
      have hrest := ih (fun call hcall => hcalls call (List.mem_cons_of_mem _ hcall)) hfollows
        fun entry hentry => hok entry (List.mem_cons_of_mem _ hentry)
      rw [List.map_cons, hrest, hsame, hanswer]
      rfl

/-- A lexer at the start of a source that reads lines in one way. -/
def atStart (source : String) (colons : Bool) (mode : Mode) : Lexer :=
  { ofSource source colons with mode }

/-- **Looking ahead and deferring are transparent.**  As long as the mode stays and no call fails,
    taking, looking ahead and putting tokens in have the answers of the machine that starts with
    nothing deferred and the stream of the source. -/
theorem queues_transparent (source : String) (colons : Bool) (mode : Mode) {calls : List Call}
    (hcalls : ∀ call ∈ calls, call.Steady)
    (hok : ∀ entry ∈ (run calls (atStart source colons mode)).1, entry.2.isOk) :
    (run calls (atStart source colons mode)).1.map Prod.snd
      = (Reference.run calls ⟨[], (atStart source colons mode).stream⟩).map .ok :=
  have hnone : ∀ t ∈ (atStart source colons mode).pending, t.Follows := nofun
  run_reference hcalls hnone hok

/-- Calls that look beyond the end of the stream, and put a token in behind one and in front of
    tokens that were looked at. -/
def interleavedCalls : List Call :=
  [.lookahead 2, .defer (.bare .text 7 "x"), .lookahead 9, .advance, .defer (.bare .colon 8),
   .lookahead 1, .advance, .lookahead 1, .advance, .advance, .advance, .advance, .advance]

theorem queues_transparent_interleaved :
    (∀ call ∈ interleavedCalls, call.Steady)
      ∧ (∀ entry ∈ (run interleavedCalls (atStart "a: b\n  | c" false .markup)).1, entry.2.isOk)
      ∧ (run interleavedCalls (atStart "a: b\n  | c" false .markup)).1.map Prod.snd
        = (Reference.run interleavedCalls
            ⟨[], (atStart "a: b\n  | c" false .markup).stream⟩).map .ok := by
  have hcalls : ∀ call ∈ interleavedCalls, call.Steady := by
    simp [interleavedCalls, Call.Steady]
  have hok : ∀ entry ∈ (run interleavedCalls (atStart "a: b\n  | c" false .markup)).1,
      entry.2.isOk := by
    decide +kernel
  exact ⟨hcalls, hok, queues_transparent "a: b\n  | c" false .markup hcalls hok⟩

end Stencil.Lexer
