import Stencil.Proofs.Lexer.LineNumbers

/-! # Lines of a source — every token and failure is on one of them

    `Spans total lexer` is the invariant of a lexer over a source of `total`
    lines whose reader puts in tokens on lines of the source alone.  Under it
    every token that is taken or looked at is on a line of the source, and so is
    a failure.  It says nothing of the order of lines, and so asks less of what is
    put in than `InPlace` does. -/

namespace Stencil

namespace Lexer

/-- A line of a source of so many lines. -/
def OnLines (total : Nat) (line : Int) : Prop := 1 ≤ line ∧ line ≤ total

/-- A lexer somewhere in a source of so many lines; every token that waits is on one of them. -/
structure Spans (total : Nat) (lexer : Lexer) : Prop where
  first : 1 ≤ lexer.line
  lastLine : lexer.lastLine = total
  waiting : ∀ t ∈ lexer.deferred ++ lexer.stash ++ lexer.pending, OnLines total t.line

variable {total : Nat} {lexer after : Lexer} {token : Token} {fault : LexicalFault}

theorem spans_ofSource (source : String) (colons : Bool) :
    Spans (Text.countNewlines (Text.normalizeNewlines source.toList) + 1)
      (ofSource source colons) :=
  ⟨Nat.le_refl 1, Nat.add_comm _ _, nofun⟩

/-- The current line is one of the source. -/
theorem onLines_current (hfirst : 1 ≤ lexer.line) (hlast : lexer.lastLine = total) :
    OnLines total lexer.line := by
  replace hlast : lexer.line + Text.countNewlines lexer.input = total := hlast
  exact ⟨Int.ofNat_le.mpr hfirst, Int.ofNat_le.mpr (by omega)⟩

theorem Spans.current (h : Spans total lexer) : OnLines total lexer.line :=
  onLines_current h.first h.lastLine

theorem Spans.onward (h : Spans total lexer) (honward : lexer.Onward after)
    (hwaiting : ∀ t ∈ after.deferred ++ after.stash ++ after.pending, OnLines total t.line) :
    Spans total after :=
  ⟨Nat.le_trans h.first honward.line, honward.lastLine.trans h.lastLine, hwaiting⟩

/-- The text gives a token on a line of the source. -/
theorem Spans.next (h : Spans total lexer) (hnext : lexer.next = (.ok token, after)) :
    OnLines total token.line ∧ Spans total after := by
  obtain ⟨hdeferred, hstash⟩ := next_queues hnext
  have honward := next_onward lexer
  rw [hnext] at honward
  have hline : OnLines total after.line :=
    onLines_current (Nat.le_trans h.first honward.line) (honward.lastLine.trans h.lastLine)
  have hqueues : ∀ t ∈ after.deferred ++ after.stash, OnLines total t.line := by
    rw [hdeferred, hstash]
    exact fun t ht => h.waiting t (List.mem_append_left _ ht)
  have hall : OnLines total token.line ∧ ∀ t ∈ after.pending, OnLines total t.line := by
    rcases hpending : lexer.pending with - | ⟨waiting, pending⟩
    · obtain ⟨hstart, hfinish, hfollowers⟩ := next_lines hpending hnext
      exact ⟨⟨Int.le_trans h.current.1 hstart, Int.le_trans hfinish hline.2⟩,
        fun t ht => hfollowers t ht ▸ hline⟩
    · have hwaiting := fun t ht => h.waiting t (List.mem_append_right _ ht)
      unfold Lexer.next at hnext
      rw [hpending] at hnext hwaiting
      cases hnext
      exact ⟨hwaiting _ List.mem_cons_self, fun t ht => hwaiting t (List.mem_cons_of_mem _ ht)⟩
  exact ⟨hall.1, h.onward honward fun t ht =>
    (List.mem_append.mp ht).elim (hqueues t) (hall.2 t)⟩

/-- The text fails on a line of the source. -/
theorem Spans.fail (h : Spans total lexer) (hnext : lexer.next = (.error fault, after)) :
    OnLines total fault.line := by
  obtain ⟨hstart, hfinish⟩ := next_fault_line hnext
  have honward := next_onward lexer
  rw [hnext] at honward
  have hline : OnLines total after.line :=
    onLines_current (Nat.le_trans h.first honward.line) (honward.lastLine.trans h.lastLine)
  exact ⟨Int.le_trans h.current.1 (Int.ofNat_le.mpr hstart),
    Int.le_trans (Int.ofNat_le.mpr hfinish) hline.2⟩

theorem Spans.stock (count : Nat) : ∀ {lexer : Lexer}, Spans total lexer →
    (∀ after, lexer.stock count = (.ok (), after) → Spans total after)
      ∧ ∀ fault after, lexer.stock count = (.error fault, after) → OnLines total fault.line := by
  induction count with
  | zero =>
      intro lexer h
      refine ⟨fun after hstock => ?_, nofun⟩
      cases hstock
      exact h
  | succ count ih =>
      intro lexer h
      unfold Lexer.stock
      rcases hnext : lexer.next with ⟨fault | token, after⟩
      · refine ⟨fun after' hstock => ?_, fun fault' after' hstock => ?_⟩
        · cases hstock
        · cases hstock
          exact h.fail hnext
      · obtain ⟨hline, hspans⟩ := h.next hnext
        refine ih ⟨hspans.first, hspans.lastLine, fun t ht => ?_⟩
        replace ht : t ∈ after.deferred ++ (after.stash ++ [token]) ++ after.pending := ht
        simp only [List.mem_append, List.mem_singleton] at ht
        have hwaiting := hspans.waiting t
        simp only [List.mem_append] at hwaiting
        rcases ht with (ht | ht | rfl) | ht
        · exact hwaiting (.inl (.inl ht))
        · exact hwaiting (.inl (.inr ht))
        · exact hline
        · exact hwaiting (.inr ht)

/-- **A look** shows a token on a line of the source, or fails on one. -/
theorem Spans.peekAt (h : Spans total lexer) (offset : Nat) :
    OnLines total (lineOf (lexer.peekAt offset).1)
      ∧ ((lexer.peekAt offset).1.isOk → Spans total (lexer.peekAt offset).2) := by
  obtain ⟨hok, herror⟩ := h.stock (offset + 1 - (lexer.deferred.length + lexer.stash.length))
  unfold Lexer.peekAt
  split
  · next fault after hstock => exact ⟨herror _ _ hstock, nofun⟩
  · next after hstock =>
      have hspans := hok _ hstock
      refine ⟨?_, fun _ => hspans⟩
      show OnLines total ((after.deferred ++ after.stash).getD offset (after.token .eos)).line
      rw [List.getD_eq_getElem?_getD]
      cases hget : (after.deferred ++ after.stash)[offset]? with
      | none => exact hspans.current
      | some token => exact hspans.waiting _ (List.mem_append_left _ (List.mem_of_getElem? hget))

/-- **Taking** gives a token on a line of the source, or fails on one. -/
theorem Spans.advance (h : Spans total lexer) :
    OnLines total (lineOf lexer.advance.1)
      ∧ (lexer.advance.1.isOk → Spans total lexer.advance.2) := by
  have hwaiting := h.waiting
  unfold Lexer.advance
  split
  · next token deferred hdeferred =>
      rw [hdeferred] at hwaiting
      exact ⟨hwaiting token List.mem_cons_self, fun _ => h.onward ⟨rfl, Nat.le_refl _⟩ fun t ht =>
        hwaiting t (List.mem_cons_of_mem _ ht)⟩
  · next hdeferred =>
      rw [hdeferred] at hwaiting
      split
      · next token stash hstash =>
          rw [hstash] at hwaiting
          refine ⟨hwaiting token List.mem_cons_self, fun _ => h.onward ⟨rfl, Nat.le_refl _⟩ ?_⟩
          rw [show ({ lexer with stash } : Lexer).deferred = [] from hdeferred]
          exact fun t ht => hwaiting t (List.mem_cons_of_mem _ ht)
      · rcases hnext : lexer.next with ⟨fault | token, after⟩
        · exact ⟨h.fail hnext, nofun⟩
        · obtain ⟨hline, hspans⟩ := h.next hnext
          exact ⟨hline, fun _ => hspans⟩

theorem Spans.defer (h : Spans total lexer) (hline : OnLines total token.line) :
    Spans total (lexer.defer token) := by
  refine ⟨h.first, h.lastLine, fun t ht => ?_⟩
  replace ht : t ∈ (lexer.deferred ++ [token]) ++ lexer.stash ++ lexer.pending := ht
  have hwaiting := h.waiting t
  simp only [List.mem_append, List.mem_singleton] at ht hwaiting
  rcases ht with ((ht | rfl) | ht) | ht
  · exact hwaiting (.inl (.inl ht))
  · exact hline
  · exact hwaiting (.inl (.inr ht))
  · exact hwaiting (.inr ht)

end Lexer

end Stencil
