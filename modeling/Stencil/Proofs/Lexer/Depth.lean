import Stencil.Proofs.Lexer.Balance

/-! # Depth — where a reader stands

    A reader that takes an indent is inside one block more, and one that takes an
    outdent is out of one again.  `Stands depth bound deferred shown lexer` says
    how many blocks the reader of a lexer is inside, how many tokens it may still
    take, which tokens it has put in, and which ones it has looked at.

    Looking ahead shows one token more (`Stands.peekAt`), and taking moves the
    reader as the token says (`Stands.advance`).  Inside a block the stream
    cannot end: the outdent that closes the block comes before that
    (`Stands.eos`). -/

namespace Stencil

open Lexer

/-- What taking a token of a kind does to the number of blocks that a reader is inside. -/
inductive TokenKind.Moves : TokenKind → Nat → Nat → Prop where
  | keep {kind : TokenKind} {depth : Nat} (indent : kind ≠ .indent) (outdent : kind ≠ .outdent) :
      Moves kind depth depth
  | indent {depth : Nat} : Moves .indent depth (depth + 1)
  | outdent {depth : Nat} : Moves .outdent (depth + 1) depth

theorem TokenKind.ne_eos_of_keepsLevel {kind : TokenKind} (h : kind.keepsLevel = true) :
    kind ≠ .eos := by
  rintro rfl
  exact nomatch h

theorem TokenKind.moves_of_keepsLevel {kind : TokenKind} (h : kind.keepsLevel = true)
    (depth : Nat) : kind.Moves depth depth := by
  refine .keep ?_ ?_
  · rintro rfl
    exact nomatch h
  · rintro rfl
    exact nomatch h

theorem TokenKind.Moves.count {kind : TokenKind} {depth depth' : Nat}
    (h : kind.Moves depth depth') :
    depth' + (if kind = .outdent then 1 else 0) = depth + if kind = .indent then 1 else 0 := by
  cases h with
  | keep hindent houtdent => rw [if_neg hindent, if_neg houtdent]
  | indent => rfl
  | outdent => rfl

namespace Lexer

variable {depth depth' bound bound' : Nat} {deferred shown produced : List Token}
  {lexer after : Lexer} {token : Token} {fault : LexicalFault}

/-! ## Balance and the tokens that are taken -/

/-- The point that a balance counts from moves behind the first token. -/
theorem Balance.take (h : Balance depth (token :: produced) lexer)
    (hmoves : token.kind.Moves depth depth') : Balance depth' produced lexer := by
  have hmoved := hmoves.count
  have hcons : ∀ {kind} {before : List Token}, countKind kind (token :: before)
      = countKind kind before + if token.kind = kind then 1 else 0 :=
    fun {kind before} => countKind_cons kind token before
  refine ⟨h.rising, h.follows, ?_, ?_, ?_⟩
  · have hcount := h.count
    rw [hcons, hcons] at hcount
    omega
  · intro before hbefore
    have hopened := h.opened (token :: before) (List.cons_prefix_cons.mpr ⟨rfl, hbefore⟩)
    rw [hcons, hcons] at hopened
    omega
  · intro before last hbefore heos
    obtain ⟨hclosed, hfinished⟩ :=
      h.closed (token :: before) last (List.cons_prefix_cons.mpr ⟨rfl, hbefore⟩) heos
    rw [hcons, hcons] at hclosed
    exact ⟨by omega, hfinished⟩

/-- No outdent comes when no block is open, so every token moves the reader somewhere. -/
theorem Balance.moves (h : Balance depth (token :: produced) lexer) :
    ∃ depth', token.kind.Moves depth depth' := by
  by_cases hindent : token.kind = .indent
  · exact ⟨depth + 1, hindent ▸ .indent⟩
  · by_cases houtdent : token.kind = .outdent
    · have hopened := h.opened [token] (List.cons_prefix_cons.mpr ⟨rfl, List.nil_prefix⟩)
      rw [countKind_cons, countKind_cons, if_pos houtdent, if_neg hindent] at hopened
      obtain ⟨depth', rfl⟩ : ∃ depth', depth = depth' + 1 := ⟨depth - 1, by
        simp only [countKind_nil] at hopened
        omega⟩
      exact ⟨depth', houtdent ▸ .outdent⟩
    · exact ⟨depth, .keep hindent houtdent⟩

/-- The stream ends outside of all blocks. -/
theorem Balance.eos (h : Balance depth (token :: produced) lexer) (heos : token.kind = .eos) :
    depth = 0 := by
  have hclosed := (h.closed [] token (List.cons_prefix_cons.mpr ⟨rfl, List.nil_prefix⟩) heos).1
  simpa using hclosed.symm

/-! ## Where a reader stands -/

/-- A reader inside `depth` blocks that may take fewer than `bound` tokens out of the text, has put
    in `deferred`, and has looked at `shown`. -/
structure Stands (depth bound : Nat) (deferred shown : List Token) (lexer : Lexer) : Prop where
  queue : lexer.deferred = deferred
  keep : ∀ t ∈ deferred, t.kind.keepsLevel = true
  seen : shown <+: deferred ++ lexer.stash
  balance : Balance depth lexer.stash lexer
  potential : lexer.potential < bound + deferred.length

/-- What the reader has looked at may be forgotten. -/
theorem Stands.forget (h : Stands depth bound deferred shown lexer) :
    Stands depth bound deferred [] lexer :=
  { h with seen := List.nil_prefix }

theorem Stands.mono (h : Stands depth bound deferred shown lexer) (hle : bound ≤ bound') :
    Stands depth bound' deferred shown lexer :=
  { h with potential := Nat.lt_of_lt_of_le h.potential (Nat.add_le_add_right hle _) }

/-- Every deferred token counts. -/
theorem Stands.length_le (h : Stands depth bound deferred shown lexer) :
    deferred.length ≤ lexer.potential := by
  have hcount : countOpen lexer.deferred = deferred.length := by
    rw [h.queue, countOpen, List.filter_eq_self.mpr]
    intro t ht
    simpa using TokenKind.ne_eos_of_keepsLevel (h.keep t ht)
  rw [← hcount, Lexer.potential]
  exact Nat.le_add_left _ _

/-- The stream does not end while a token is deferred, and not inside a block. -/
theorem Stands.eos (h : Stands depth bound deferred [token] lexer) (heos : token.kind = .eos) :
    depth = 0 := by
  have hseen := h.seen
  rcases deferred with - | ⟨first, deferred⟩
  · obtain ⟨stash, hstash⟩ := hseen
    have hbalance := h.balance
    rw [List.nil_append] at hstash
    rw [← hstash] at hbalance
    exact hbalance.eos heos
  · obtain ⟨rfl, -⟩ := List.cons_prefix_cons.mp hseen
    exact absurd heos (TokenKind.ne_eos_of_keepsLevel (h.keep _ List.mem_cons_self))

/-- A reader at the start of a source. -/
theorem stands_ofSource (source : String) (colons : Bool) :
    Stands 0 ((ofSource source colons).potential + 1) [] [] (ofSource source colons) :=
  ⟨rfl, nofun, List.nil_prefix, balance_ofSource source colons, Nat.lt_succ_self _⟩

/-! ## Looking ahead -/

/-- A token that moves from the text to the stash leaves the reader where it is. -/
theorem Stands.scan (h : Stands depth bound deferred shown lexer)
    (hnext : lexer.next = (.ok token, after)) :
    Stands depth bound deferred shown { after with stash := after.stash ++ [token] } := by
  obtain ⟨hdeferred, hstash⟩ := next_queues hnext
  refine ⟨hdeferred.trans h.queue, h.keep, ?_, ?_, ?_⟩
  · show shown <+: deferred ++ (after.stash ++ [token])
    rw [hstash, ← List.append_assoc]
    exact h.seen.trans (List.prefix_append _ _)
  · show Balance depth (after.stash ++ [token]) _
    rw [hstash]
    exact (h.balance.next hnext).congr rfl rfl rfl
  · have hbound := h.potential
    have hprogress := next_progress hnext
    have hscanned : Lexer.potential { after with stash := after.stash ++ [token] }
        = after.potential + countOpen [token] := by
      simp only [Lexer.potential, countOpen_append]
      omega
    rw [hscanned]
    by_cases heos : token.kind = .eos
    · have hle := hprogress.le
      rw [countOpen_cons_of_eos heos, countOpen_nil]
      omega
    · have hlt := hprogress.lt heos
      rw [countOpen_cons_of_ne heos, countOpen_nil]
      omega

theorem Stands.stock (count : Nat) : ∀ {lexer after : Lexer},
    Stands depth bound deferred shown lexer → lexer.stock count = (.ok (), after) →
      Stands depth bound deferred shown after
        ∧ after.stash.length = lexer.stash.length + count := by
  induction count with
  | zero =>
      rintro lexer after h ⟨⟩
      exact ⟨h, rfl⟩
  | succ count ih =>
      intro lexer after h hstock
      rw [Lexer.stock] at hstock
      rcases hnext : lexer.next with ⟨fault | token, scanned⟩
      · rw [hnext] at hstock
        cases hstock
      · rw [hnext] at hstock
        obtain ⟨hafter, hlength⟩ := ih (h.scan hnext) hstock
        refine ⟨hafter, ?_⟩
        rw [hlength, (next_queues hnext).2, List.length_append, List.length_singleton]
        omega

/-- Moving tokens to the stash fails for one of two causes. -/
theorem stock_fault (count : Nat) : ∀ {lexer : Lexer},
    lexer.stock count = (.error fault, after) →
      fault.cause = .mixedIndentation ∨ fault.cause = .unterminatedAttributes := by
  induction count with
  | zero => exact fun hstock => nomatch congrArg Prod.fst hstock
  | succ count ih =>
      intro lexer hstock
      rw [Lexer.stock] at hstock
      rcases hnext : lexer.next with ⟨other | token, scanned⟩
      · rw [hnext] at hstock
        obtain rfl : other = fault := Except.error.inj (congrArg Prod.fst hstock)
        exact (next_fault hnext).cause
      · rw [hnext] at hstock
        exact ih hstock

theorem peekAt_fault {offset : Nat} (hpeek : lexer.peekAt offset = (.error fault, after)) :
    fault.cause = .mixedIndentation ∨ fault.cause = .unterminatedAttributes := by
  rw [peekAt] at hpeek
  split at hpeek
  · next hstock =>
      obtain ⟨⟨⟩, rfl⟩ := Prod.mk.inj hpeek
      exact stock_fault _ hstock
  · cases hpeek

/-- **A look** at the next token shows it, and leaves the reader where it is. -/
theorem Stands.peekAt (h : Stands depth bound deferred shown lexer)
    (hpeek : lexer.peekAt shown.length = (.ok token, after)) :
    Stands depth bound deferred (shown ++ [token]) after := by
  rw [Lexer.peekAt] at hpeek
  split at hpeek
  · cases hpeek
  · next stocked hstock =>
      obtain rfl : stocked = after := congrArg Prod.snd hpeek
      obtain ⟨hstands, hlength⟩ := h.stock _ hstock
      refine { hstands with seen := ?_ }
      -- the queues are longer than what was shown before
      have htoken := Except.ok.inj (congrArg Prod.fst hpeek)
      obtain ⟨rest, hrest⟩ := hstands.seen
      rw [hstands.queue, ← hrest] at htoken
      rw [← hrest]
      have hlt : shown.length < (shown ++ rest).length := by
        rw [hrest, List.length_append, hlength, ← h.queue]
        omega
      rcases rest with - | ⟨first, rest⟩
      · rw [List.append_nil] at hlt
        exact absurd hlt (Nat.lt_irrefl _)
      · obtain rfl : first = token := by simpa using htoken
        exact ⟨rest, by rw [List.append_assoc]; rfl⟩

/-! ## Taking and putting in -/

/-- A token that is put in comes after the deferred ones; it has to keep the levels. -/
theorem Stands.defer (h : Stands depth bound deferred shown lexer)
    (hkeep : token.kind.keepsLevel = true) :
    Stands depth bound (deferred ++ [token]) [] (lexer.defer token) := by
  refine ⟨congrArg (· ++ [token]) h.queue, ?_, List.nil_prefix, h.balance.congr rfl rfl rfl, ?_⟩
  · intro t ht
    rcases List.mem_append.mp ht with ht | ht
    · exact h.keep t ht
    · obtain rfl := List.mem_singleton.mp ht
      exact hkeep
  · have hbound := h.potential
    simp only [Lexer.potential, Lexer.defer, countOpen_append, countOpen_nil, List.length_append,
      countOpen_cons_of_ne (TokenKind.ne_eos_of_keepsLevel hkeep), List.length_singleton]
      at hbound ⊢
    omega

/-- A deferred token is taken first; the reader stays where it is. -/
theorem Stands.advance_deferred (h : Stands depth bound (token :: deferred) shown lexer) :
    ∃ after, lexer.advance = (.ok token, after) ∧ Stands depth bound deferred [] after := by
  refine ⟨{ lexer with deferred }, ?_, rfl, fun t ht => h.keep t (List.mem_cons_of_mem _ ht),
    List.nil_prefix, h.balance.congr rfl rfl rfl, ?_⟩
  · rw [Lexer.advance, h.queue]
    rfl
  · have hne := TokenKind.ne_eos_of_keepsLevel (h.keep token List.mem_cons_self)
    have hbound := h.potential
    simp only [Lexer.potential, h.queue, countOpen_cons_of_ne hne, List.length_cons] at hbound ⊢
    omega

/-- **A token that was looked at is taken**; the reader moves as it says. -/
theorem Stands.advance (h : Stands depth bound [] (token :: shown) lexer)
    (hmoves : token.kind.Moves depth depth') (hne : token.kind ≠ .eos) :
    ∃ after, lexer.advance = (.ok token, after) ∧ Stands depth' (bound - 1) [] shown after := by
  obtain ⟨rest, hrest⟩ := h.seen
  rw [List.nil_append, List.cons_append] at hrest
  have hbalance := h.balance
  rw [← hrest] at hbalance
  refine ⟨{ lexer with stash := shown ++ rest }, ?_, h.queue, nofun, ?_, ?_, ?_⟩
  · rw [Lexer.advance, h.queue, ← hrest]
    rfl
  · exact List.prefix_append _ _
  · exact (hbalance.take hmoves).congr rfl rfl rfl
  · have hbound := h.potential
    simp only [Lexer.potential, h.queue, ← hrest, countOpen_cons_of_ne hne, List.length_nil]
      at hbound ⊢
    omega

/-! ## Sessions -/

/-- A call that puts in no token but one that keeps the levels. -/
def Call.KeepsLevel (call : Call) : Prop :=
  ∀ token, call = .defer token → token.kind.keepsLevel = true

/-- A reader stands somewhere: the deferred tokens keep the levels, and the stash is balanced. -/
def Sound (lexer : Lexer) : Prop :=
  (∀ t ∈ lexer.deferred, t.kind.keepsLevel = true) ∧ ∃ depth, Balance depth lexer.stash lexer

theorem Sound.stands (h : lexer.Sound) :
    ∃ depth, Stands depth (lexer.potential + 1) lexer.deferred [] lexer := by
  obtain ⟨hkeep, depth, hbalance⟩ := h
  exact ⟨depth, rfl, hkeep, List.nil_prefix, hbalance, by omega⟩

theorem Sound.advance (h : lexer.Sound) : lexer.advance.2.Sound := by
  obtain ⟨hkeep, depth, hbalance⟩ := h
  rw [Lexer.advance]
  split
  · next token deferred hdeferred =>
      exact ⟨fun t ht => hkeep t (hdeferred ▸ List.mem_cons_of_mem _ ht), depth,
        hbalance.congr rfl rfl rfl⟩
  · split
    · next token stash hstash =>
        rw [hstash] at hbalance
        obtain ⟨depth', hmoves⟩ := hbalance.moves
        exact ⟨hkeep, depth', (hbalance.take hmoves).congr rfl rfl rfl⟩
    · next hstash =>
        rw [hstash] at hbalance
        rcases hnext : lexer.next with ⟨fault | token, after⟩
        · obtain ⟨hdeferred, hsame⟩ := next_queues hnext
          refine ⟨hdeferred ▸ hkeep, depth, ?_⟩
          show Balance depth after.stash after
          rw [hsame, hstash]
          exact hbalance.fail hnext
        · obtain ⟨hdeferred, hsame⟩ := next_queues hnext
          have hproduced : Balance depth [token] after := hbalance.next hnext
          obtain ⟨depth', hmoves⟩ := hproduced.moves
          refine ⟨hdeferred ▸ hkeep, depth', ?_⟩
          show Balance depth' after.stash after
          rw [hsame, hstash]
          exact hproduced.take hmoves

theorem Sound.lookahead (h : lexer.Sound) (distance : Int) :
    (lexer.lookahead distance).2.Sound := by
  obtain ⟨hkeep, depth, hbalance⟩ := h
  rw [Lexer.lookahead]
  split
  · exact ⟨hkeep, depth, hbalance⟩
  · rw [peekAt_after]
    have hproduced : Balance depth ([] ++ lexer.stash) lexer := hbalance
    obtain ⟨hstocked, hdeferred⟩ := hproduced.stock
      (distance.toNat - 1 + 1 - (lexer.deferred.length + lexer.stash.length))
    refine ⟨?_, depth, hstocked⟩
    rw [hdeferred]
    exact hkeep

theorem Sound.perform (h : lexer.Sound) {call : Call} (hcall : call.KeepsLevel) :
    (call.perform lexer).2.Sound := by
  cases call with
  | advance => exact h.advance
  | lookahead distance => exact h.lookahead distance
  | defer token =>
      obtain ⟨hkeep, depth, hbalance⟩ := h
      refine ⟨fun t ht => ?_, depth, hbalance.congr rfl rfl rfl⟩
      rcases List.mem_append.mp ht with ht | ht
      · exact hkeep t ht
      · obtain rfl := List.mem_singleton.mp ht
        exact hcall _ rfl
  | switch mode => exact ⟨h.1, h.2.imp fun _ hbalance => hbalance.congr rfl rfl rfl⟩

/-- **In every state that a session leads to, the reader stands somewhere.** -/
theorem run_sound (source : String) (colons : Bool) {calls : List Call}
    (hcalls : ∀ call ∈ calls, call.KeepsLevel) : (run calls (ofSource source colons)).2.Sound :=
  have hstart : (ofSource source colons).Sound := ⟨nofun, 0, balance_ofSource source colons⟩
  run_keeps (I := fun _ lexer => lexer.Sound)
    (fun call hcall _ _ h => h.perform (hcalls call hcall)) [] hstart

end Lexer

end Stencil
