import Stencil.Proofs.Lexer.Calls

/-! # Balance — indents and outdents against the open levels

    Every indent opens a level and every outdent closes one, but the tokens run
    ahead of a reader: some wait in the stash, and the outdents of one line wait
    behind each other.  `Balance depth produced lexer` weighs the tokens that
    came out of the text and were not taken before a certain point, where `depth`
    blocks were open: with the pending outdents they account for the open levels.
    A step keeps it (`Balance.next`), a token that is taken moves the point
    (`Balance.take`), and so every session does (`levels_balanced`).

    Since the stream ends only when no level is open and nothing is pending, as
    many blocks have been closed as were opened when it does. -/

namespace Stencil

namespace Lexer

/-- The number of tokens of a kind. -/
def countKind (kind : TokenKind) (tokens : List Token) : Nat :=
  tokens.countP fun token => token.kind == kind

@[simp] theorem countKind_nil (kind : TokenKind) : countKind kind [] = 0 := rfl

@[simp] theorem countKind_append (kind : TokenKind) (tokens more : List Token) :
    countKind kind (tokens ++ more) = countKind kind tokens + countKind kind more :=
  List.countP_append

theorem countKind_cons (kind : TokenKind) (token : Token) (tokens : List Token) :
    countKind kind (token :: tokens)
      = countKind kind tokens + if token.kind = kind then 1 else 0 := by
  rw [countKind, List.countP_cons]
  simp only [beq_iff_eq]
  rfl

end Lexer

/-! ## What a step does to the levels -/

open Lexer

variable {levels levels' : List Nat} {token : Token} {followers : List Token}

/-- The levels are positive, and each is wider than those around it. -/
structure Rising (levels : List Nat) : Prop where
  narrowing : levels.Pairwise (· > ·)
  positive : ∀ width ∈ levels, 0 < width

theorem Rising.step (h : Rising levels) (hstep : LevelStep levels token levels' followers) :
    Rising levels' := by
  cases hstep with
  | keep => exact h
  | @opens _ _ width _ hwider =>
      -- wider than the innermost level is wider than all of them
      have hall : ∀ outer ∈ levels, outer < width := by
        intro outer houter
        rcases levels with - | ⟨innermost, levels⟩
        · exact nomatch houter
        · rcases List.mem_cons.mp houter with rfl | houter
          · exact hwider
          · exact Nat.lt_trans ((List.pairwise_cons.mp h.narrowing).1 outer houter) hwider
      refine ⟨List.pairwise_cons.mpr ⟨hall, h.narrowing⟩, ?_⟩
      intro other hother
      rcases List.mem_cons.mp hother with rfl | hother
      · exact Nat.zero_lt_of_lt hwider
      · exact h.positive other hother
  | closes innermost closed =>
      have hsuffix : levels' <:+ innermost :: (closed ++ levels') :=
        List.suffix_append (innermost :: closed) levels'
      exact ⟨h.narrowing.sublist hsuffix.sublist, fun width hwidth =>
        h.positive width (hsuffix.subset hwidth)⟩

/-- A token and its followers account for the change of the levels. -/
theorem LevelStep.count (hstep : LevelStep levels token levels' followers) :
    levels.length + countKind .indent [token]
      = levels'.length + countKind .outdent [token] + countKind .outdent followers := by
  cases hstep with
  | keep hkind hcolons =>
      have hcolon : countKind .outdent followers = 0 := by
        rw [countKind, List.countP_eq_zero]
        intro t ht
        rw [hcolons t ht]
        decide
      have hindent : token.kind ≠ .indent := by
        intro h
        rw [h] at hkind
        exact nomatch hkind
      have houtdent : token.kind ≠ .outdent := by
        intro h
        rw [h] at hkind
        exact nomatch hkind
      simp only [countKind_cons, countKind_nil, if_neg hindent, if_neg houtdent, hcolon]
  | opens hlexeme =>
      have hkind : token.kind = .indent := congrArg Lexeme.kind hlexeme
      simp [countKind_cons, hkind]
  | closes innermost closed hkind =>
      have hall : countKind .outdent (List.replicate closed.length token) = closed.length := by
        rw [countKind, List.countP_replicate, hkind]
        rfl
      simp only [countKind_cons, countKind_nil, hkind, hall, List.length_cons, List.length_append]
      simp
      omega

theorem Token.Follows.not_indent (h : token.Follows) : token.kind ≠ .indent := by
  intro hkind
  rw [Token.Follows, hkind] at h
  rcases h with houtdent | hcolon
  · cases houtdent
  · cases hcolon

/-! ## The balance -/

namespace Lexer

/-- Since a point where `depth` blocks were open, these tokens came out of the text. -/
structure Balance (depth : Nat) (produced : List Token) (lexer : Lexer) : Prop where
  rising : Rising lexer.levels
  follows : ∀ t ∈ lexer.pending, t.Follows
  /-- Indents account for outdents, pending ones included, and the open levels. -/
  count : depth + countKind .indent produced
    = countKind .outdent produced + countKind .outdent lexer.pending + lexer.levels.length
  /-- No block is closed that was not opened. -/
  opened : ∀ before, before <+: produced →
    countKind .outdent before ≤ depth + countKind .indent before
  /-- When the stream ends, every block has been closed. -/
  closed : ∀ before last, before ++ [last] <+: produced → last.kind = .eos →
    countKind .outdent before = depth + countKind .indent before ∧ lexer.Finished

variable {depth : Nat} {produced : List Token} {lexer after : Lexer} {fault : LexicalFault}

theorem balance_ofSource (source : String) (colons : Bool) :
    Balance 0 [] (ofSource source colons) where
  rising := ⟨List.Pairwise.nil, nofun⟩
  follows := nofun
  count := rfl
  opened := by
    intro before hbefore
    rw [List.prefix_nil.mp hbefore]
    exact Nat.le_refl _
  closed := by
    intro before last hbefore
    exact absurd (List.prefix_nil.mp hbefore) (by simp)

/-- The balance is one of the text that is left, the levels and the pending tokens. -/
theorem Balance.congr (h : Balance depth produced lexer) (hinput : after.input = lexer.input)
    (hlevels : after.levels = lexer.levels) (hpending : after.pending = lexer.pending) :
    Balance depth produced after where
  rising := hlevels ▸ h.rising
  follows := hpending ▸ h.follows
  count := by rw [hlevels, hpending, h.count]
  opened := h.opened
  closed := by
    intro before last hbefore heos
    obtain ⟨hcount, hfinished⟩ := h.closed before last hbefore heos
    exact ⟨hcount, hinput.trans hfinished.input, hlevels.trans hfinished.levels,
      hpending.trans hfinished.pending⟩

/-- Indents account for the outdents when a token comes out. -/
theorem Balance.count_next (h : Balance depth produced lexer)
    (hnext : lexer.next = (.ok token, after)) :
    depth + countKind .indent (produced ++ [token])
      = countKind .outdent (produced ++ [token]) + countKind .outdent after.pending
        + after.levels.length := by
  have hcount := h.count
  rcases next_cases hnext with ⟨hwaiting, hlevels⟩ | ⟨hnone, followers, hstep, hafter⟩
    | ⟨-, rfl, rfl⟩
  · -- a pending token was counted before
    have hfollows := h.follows token (hwaiting ▸ List.mem_cons_self)
    rw [hwaiting, countKind_cons] at hcount
    simp only [countKind_append, countKind_cons, countKind_nil, if_neg hfollows.not_indent,
      hlevels]
    omega
  · have hstep := hstep.count
    rw [hnone] at hcount hafter
    simp only [countKind_append, countKind_nil, hafter, List.nil_append] at *
    omega
  · have heos : (after.token .eos).kind = .eos := rfl
    simp only [countKind_append, countKind_cons, countKind_nil, heos, reduceCtorEq, if_false]
    omega

/-- **A step keeps the balance.** -/
theorem Balance.next (h : Balance depth produced lexer)
    (hnext : lexer.next = (.ok token, after)) : Balance depth (produced ++ [token]) after := by
  have hcount := h.count_next hnext
  refine ⟨?_, next_follows h.follows hnext, hcount, ?_, ?_⟩
  · rcases next_cases hnext with ⟨-, hlevels⟩ | ⟨-, followers, hstep, -⟩ | ⟨-, -, rfl⟩
    · rw [hlevels]
      exact h.rising
    · exact h.rising.step hstep
    · exact h.rising
  · intro before hbefore
    rcases List.prefix_concat_iff.mp hbefore with rfl | hbefore
    · omega
    · exact h.opened before hbefore
  · intro before last hbefore heos
    rcases List.prefix_concat_iff.mp hbefore with heq | hbefore
    · -- the stream ends with this step
      obtain ⟨rfl, hlast⟩ := List.append_inj' heq rfl
      obtain rfl : last = token := List.singleton_inj.mp hlast
      obtain ⟨hfinished, rfl⟩ := next_eos h.follows hnext heos
      have hcount := h.count
      rw [hfinished.pending, hfinished.levels] at hcount
      simp only [countKind_nil, List.length_nil] at hcount
      exact ⟨by omega, hfinished⟩
    · -- it has ended before, and the lexer stays as it is
      obtain ⟨hequal, hfinished⟩ := h.closed before last hbefore heos
      obtain rfl : lexer = after := congrArg Prod.snd (hfinished.next.symm.trans hnext)
      exact ⟨hequal, hfinished⟩

/-- A step that fails keeps the balance. -/
theorem Balance.fail (h : Balance depth produced lexer)
    (hnext : lexer.next = (.error fault, after)) : Balance depth produced after := by
  obtain ⟨-, hlevels, hpending⟩ := next_fault hnext
  refine ⟨hlevels ▸ h.rising, hpending ▸ h.follows, by rw [hlevels, hpending, h.count],
    h.opened, ?_⟩
  intro before last hbefore heos
  obtain ⟨-, hfinished⟩ := h.closed before last hbefore heos
  exact nomatch congrArg Prod.fst (hfinished.next.symm.trans hnext)

/-- Looking ahead keeps the balance: what comes out of the text goes behind the stash. -/
theorem Balance.stock (count : Nat) : ∀ {lexer : Lexer} {tokens : List Token},
    Balance depth (tokens ++ lexer.stash) lexer →
      Balance depth (tokens ++ (lexer.stock count).2.stash) (lexer.stock count).2
        ∧ (lexer.stock count).2.deferred = lexer.deferred := by
  induction count with
  | zero =>
      intro lexer tokens h
      exact ⟨h, rfl⟩
  | succ count ih =>
      intro lexer tokens h
      unfold Lexer.stock
      rcases hnext : lexer.next with ⟨fault | token, after⟩
      · obtain ⟨hdeferred, hstash⟩ := next_queues hnext
        refine ⟨?_, hdeferred⟩
        show Balance depth (tokens ++ after.stash) after
        rw [hstash]
        exact h.fail hnext
      · obtain ⟨hdeferred, hstash⟩ := next_queues hnext
        let stocked : Lexer := { after with stash := after.stash ++ [token] }
        have hbalance : Balance depth (tokens ++ stocked.stash) stocked := by
          show Balance depth (tokens ++ (after.stash ++ [token])) _
          rw [hstash, ← List.append_assoc]
          exact (h.next hnext).congr rfl rfl rfl
        obtain ⟨hstocked, hdefer⟩ := ih hbalance
        exact ⟨hstocked, hdefer.trans hdeferred⟩

/-- Looking ahead leaves the lexer stocked, whether it finds a token or fails. -/
theorem peekAt_after (lexer : Lexer) (offset : Nat) :
    (lexer.peekAt offset).2
      = (lexer.stock (offset + 1 - (lexer.deferred.length + lexer.stash.length))).2 := by
  unfold peekAt
  split
  · next hstock => rw [hstock]
  · next hstock => rw [hstock]

/-! ## Sessions -/

/-- A call that puts no token in. -/
def Call.Reads (call : Call) : Prop := ∀ token, call ≠ .defer token

/-- The balance of a session: the tokens that were taken, and then those in the stash. -/
def Balanced (tokens : List Token) (lexer : Lexer) : Prop :=
  lexer.deferred = [] ∧ Balance 0 (tokens ++ lexer.stash) lexer

theorem Balanced.advance {tokens : List Token} (h : Balanced tokens lexer) :
    Balanced (tokens ++ takenBy (.advance, (Call.advance.perform lexer).1))
      (Call.advance.perform lexer).2 := by
  obtain ⟨hdeferred, hbalance⟩ := h
  rcases hstash : lexer.stash with - | ⟨first, stash⟩
  · -- the token comes out of the text
    have hadvance : lexer.advance = lexer.next := by
      unfold Lexer.advance
      rw [hdeferred, hstash]
    rw [hstash, List.append_nil] at hbalance
    rcases hnext : lexer.next with ⟨fault | token, after⟩
    · obtain ⟨hdefer, hsame⟩ := next_queues hnext
      rw [perform_advance_of_error (hadvance.trans hnext)]
      refine ⟨hdefer.trans hdeferred, ?_⟩
      show Balance 0 ((tokens ++ []) ++ after.stash) after
      rw [hsame, hstash, List.append_nil, List.append_nil]
      exact hbalance.fail hnext
    · obtain ⟨hdefer, hsame⟩ := next_queues hnext
      rw [perform_advance_of_ok (hadvance.trans hnext)]
      refine ⟨hdefer.trans hdeferred, ?_⟩
      show Balance 0 ((tokens ++ [token]) ++ after.stash) after
      rw [hsame, hstash, List.append_nil]
      exact hbalance.next hnext
  · -- the token was looked at before
    have hadvance : lexer.advance = { lexer with stash }.emit first := by
      unfold Lexer.advance
      rw [hdeferred, hstash]
    rw [perform_advance_of_ok hadvance]
    refine ⟨hdeferred, ?_⟩
    show Balance 0 ((tokens ++ [first]) ++ stash) _
    rw [hstash] at hbalance
    rw [List.append_assoc]
    exact hbalance.congr rfl rfl rfl

theorem Balanced.lookahead {tokens : List Token} (h : Balanced tokens lexer) (distance : Int) :
    Balanced tokens (lexer.lookahead distance).2 := by
  unfold Lexer.lookahead
  split
  · exact h
  · obtain ⟨hdeferred, hbalance⟩ := h
    rw [peekAt_after]
    obtain ⟨hstocked, hsame⟩ := hbalance.stock _
    exact ⟨hsame.trans hdeferred, hstocked⟩

theorem Balanced.perform {tokens : List Token} (h : Balanced tokens lexer) {call : Call}
    (hcall : call.Reads) :
    Balanced (tokens ++ takenBy (call, (call.perform lexer).1)) (call.perform lexer).2 := by
  cases call with
  | advance => exact h.advance
  | lookahead distance =>
      show Balanced (tokens ++ []) (lexer.lookahead distance).2
      rw [List.append_nil]
      exact h.lookahead distance
  | defer token => exact absurd rfl (hcall token)
  | switch mode =>
      show Balanced (tokens ++ []) { lexer with mode }
      rw [List.append_nil]
      exact ⟨h.1, h.2.congr rfl rfl rfl⟩

/-- **Indents and outdents are balanced.**  In every state that taking, looking ahead and switching
    lead to, the open levels are positive and each is wider than the one around it, and the
    indents that came out of the text exceed the outdents, pending ones included, by their number.
    So no outdent comes before its indent, and as many levels were closed as opened when the
    stream ends. -/
theorem levels_balanced (source : String) (colons : Bool) {calls : List Call}
    (hcalls : ∀ call ∈ calls, call.Reads) :
    let answers := (run calls (ofSource source colons)).1
    let lexer := (run calls (ofSource source colons)).2
    lexer.levels.reverse.Pairwise (· < ·)
      ∧ (∀ width ∈ lexer.levels, 0 < width)
      ∧ countKind .indent (taken answers ++ lexer.stash ++ lexer.pending)
        = countKind .outdent (taken answers ++ lexer.stash ++ lexer.pending)
          + lexer.levels.length
      ∧ (∀ before, before <+: taken answers ++ lexer.stash →
        countKind .outdent before ≤ countKind .indent before)
      ∧ ∀ before last, before ++ [last] <+: taken answers ++ lexer.stash → last.kind = .eos →
        countKind .indent before = countKind .outdent before := by
  have hbalanced : Balanced [] (ofSource source colons) := ⟨rfl, balance_ofSource source colons⟩
  obtain ⟨-, hbalance⟩ := run_keeps (I := Balanced)
    (fun call hcall tokens lexer h => h.perform (hcalls call hcall)) [] hbalanced
  rw [List.nil_append] at hbalance
  -- no indent waits to come out
  have hpending : countKind .indent (run calls (ofSource source colons)).2.pending = 0 := by
    rw [countKind, List.countP_eq_zero]
    intro t ht
    simpa using (hbalance.follows t ht).not_indent
  refine ⟨List.pairwise_reverse.mpr hbalance.rising.narrowing, hbalance.rising.positive, ?_, ?_, ?_⟩
  · have hcount := hbalance.count
    simp only [countKind_append] at hcount ⊢
    omega
  · intro before hbefore
    have hopened := hbalance.opened before hbefore
    omega
  · intro before last hbefore heos
    have hclosed := (hbalance.closed before last hbefore heos).1
    omega

/-- The calls that take all tokens up to the last line of three levels, and look at the next one. -/
def queuedCalls : List Call :=
  [.advance, .lookahead 3, .switch .raw, .switch .markup, .advance, .advance, .advance, .advance,
   .lookahead 1]

/-- One outdent waits in the stash, and a second one behind it. -/
theorem levels_balanced_queued :
    (∀ call ∈ queuedCalls, call.Reads)
      ∧ (run queuedCalls (ofSource "a\n  b\n    c\nd")).2.stash.length = 1
      ∧ (run queuedCalls (ofSource "a\n  b\n    c\nd")).2.pending.length = 1
      ∧ countKind .indent (taken (run queuedCalls (ofSource "a\n  b\n    c\nd")).1
            ++ (run queuedCalls (ofSource "a\n  b\n    c\nd")).2.stash
            ++ (run queuedCalls (ofSource "a\n  b\n    c\nd")).2.pending)
        = countKind .outdent (taken (run queuedCalls (ofSource "a\n  b\n    c\nd")).1
            ++ (run queuedCalls (ofSource "a\n  b\n    c\nd")).2.stash
            ++ (run queuedCalls (ofSource "a\n  b\n    c\nd")).2.pending)
          + (run queuedCalls (ofSource "a\n  b\n    c\nd")).2.levels.length := by
  have hcalls : ∀ call ∈ queuedCalls, call.Reads := by
    simp [queuedCalls, Call.Reads]
  exact ⟨hcalls, by decide +kernel, by decide +kernel,
    (levels_balanced "a\n  b\n    c\nd" false hcalls).2.2.1⟩

end Lexer

end Stencil
