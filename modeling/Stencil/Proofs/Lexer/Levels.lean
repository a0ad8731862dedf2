import Stencil.Proofs.Lexer.Content
import Stencil.Proofs.Lexer.Progress

/-! # Levels — everything a step can do to the open levels

    A step gives out a token, and may leave followers pending.  `LevelStep` lists
    what that does to the open levels: a token that keeps them, an indent that
    opens one, or outdents that close the innermost ones.  Every step is one of
    these, or gives a pending token, or finds that the stream has ended
    (`next_cases`).  A step that fails does so for one of two causes, and leaves
    levels and pending tokens as they are (`next_fault`). -/

namespace Stencil

/-- Whether tokens of a kind leave the open levels as they are, and do not end the stream. -/
def TokenKind.keepsLevel : TokenKind → Bool
  | .eos | .indent | .outdent => false
  | _ => true

theorem TokenKind.keepsLevel_of_content {kind : TokenKind} (h : kind.isStructural = false) :
    kind.keepsLevel = true := by
  cases kind <;> first | rfl | exact nomatch h

/-- What a token that is read from the text does to the open levels, innermost first: the levels
    before it, the token, the levels after it, and the tokens that follow it. -/
inductive LevelStep : List Nat → Token → List Nat → List Token → Prop where
  /-- A token that keeps the levels; a colon may follow it. -/
  | keep {levels : List Nat} {token : Token} {followers : List Token}
      (kind : token.kind.keepsLevel = true) (colons : ∀ t ∈ followers, t.kind = .colon) :
      LevelStep levels token levels followers
  /-- An indent, which opens a level wider than the innermost one. -/
  | opens {levels : List Nat} {token : Token} {width : Nat}
      (lexeme : token.lexeme = .indent width) (wider : levels.headD 0 < width) :
      LevelStep levels token (width :: levels) []
  /-- An outdent for each of the levels that are closed. -/
  | closes {levels : List Nat} {token : Token} (innermost : Nat) (closed : List Nat)
      (kind : token.kind = .outdent) :
      LevelStep (innermost :: (closed ++ levels)) token levels
        (List.replicate closed.length token)

/-- A token that follows others: an outdent of one more level, or a colon. -/
def Token.Follows (token : Token) : Prop := token.kind = .outdent ∨ token.kind = .colon

theorem LevelStep.follows {levels after : List Nat} {token : Token} {followers : List Token}
    (h : LevelStep levels token after followers) : ∀ t ∈ followers, t.Follows := by
  intro t ht
  cases h with
  | keep _ hcolons => exact .inr (hcolons t ht)
  | opens => exact nomatch ht
  | closes innermost closed hkind => exact .inl ((List.mem_replicate.mp ht).2 ▸ hkind)

/-- A token of the text keeps, opens or closes levels, and so does not end the stream. -/
theorem LevelStep.ne_eos {levels after : List Nat} {token : Token} {followers : List Token}
    (h : LevelStep levels token after followers) : token.kind ≠ .eos := by
  intro heos
  cases h with
  | keep hkind =>
      rw [heos] at hkind
      exact nomatch hkind
  | opens hlexeme => exact nomatch (congrArg Lexeme.kind hlexeme).symm.trans heos
  | closes innermost closed hkind => exact nomatch hkind.symm.trans heos

namespace Lexer

/-- Nothing is left of the text, no level is open and no token is pending. -/
structure Finished (lexer : Lexer) : Prop where
  input : lexer.input = []
  levels : lexer.levels = []
  pending : lexer.pending = []

variable {lexer after : Lexer} {token : Token} {text : List Char} {fault : LexicalFault}

/-- A scan leaves a token of the text, and its followers behind the pending tokens. -/
def Scans (lexer : Lexer) (token : Token) (after : Lexer) : Prop :=
  ∃ followers, LevelStep lexer.levels token after.levels followers
    ∧ after.pending = lexer.pending ++ followers

/-- A scan that keeps the levels and leaves no follower. -/
theorem scans_keep (hkind : token.kind.keepsLevel = true) (hlevels : after.levels = lexer.levels)
    (hpending : after.pending = lexer.pending) : lexer.Scans token after := by
  refine ⟨[], ?_, by rw [hpending, List.append_nil]⟩
  rw [hlevels]
  exact .keep hkind fun _ h => nomatch h

/-! ## Line breaks -/

theorem closeLevels_scans {width innermost : Nat} {outer : List Nat}
    (hlevels : lexer.levels = innermost :: outer) (hwidth : width < innermost)
    (h : lexer.closeLevels width = (.ok token, after)) : lexer.Scans token after := by
  cases h
  have hclosed : lexer.levels.takeWhile (width < ·)
      = innermost :: outer.takeWhile (width < ·) := by
    rw [hlevels, List.takeWhile_cons_of_pos (by simpa using hwidth)]
  -- the first outdent is given out, and those of the outer levels follow it
  refine ⟨List.replicate (outer.takeWhile (width < ·)).length (lexer.token .outdent), ?_, ?_⟩
  · have hsplit : lexer.levels
        = innermost :: (outer.takeWhile (width < ·) ++ lexer.levels.dropWhile (width < ·)) := by
      rw [← List.cons_append, ← hclosed, List.takeWhile_append_dropWhile]
    have hstep : LevelStep (innermost :: (outer.takeWhile (width < ·)
        ++ lexer.levels.dropWhile (width < ·))) (lexer.token .outdent)
        (lexer.levels.dropWhile (width < ·)) _ := .closes _ _ rfl
    rw [← hsplit] at hstep
    exact hstep
  · simp only [hclosed, List.length_cons, Nat.add_sub_cancel]

theorem placeLine_scans {width : Nat} (h : lexer.placeLine width = (.ok token, after)) :
    lexer.Scans token after := by
  unfold placeLine at h
  simp only at h
  split at h
  · next hnarrow =>
      rcases hlevels : lexer.levels with - | ⟨innermost, outer⟩
      · rw [hlevels] at hnarrow
        exact absurd hnarrow (Nat.not_lt_zero _)
      · rw [hlevels] at hnarrow
        exact closeLevels_scans hlevels hnarrow h
  · split at h
    · next hwide =>
        cases h
        exact ⟨[], .opens rfl hwide, (List.append_nil _).symm⟩
    · cases h
      exact scans_keep rfl rfl rfl

theorem readLineBreak_scans (h : lexer.readLineBreak text = (.ok token, after)) :
    lexer.Scans token after := by
  -- a line without text on it has no width that counts
  have hnewline : ∀ line : Lexer, line.levels = lexer.levels → line.pending = lexer.pending →
      line.emit (line.token .newline) = (.ok token, after) → lexer.Scans token after := by
    intro line hlevels hpending hemit
    cases hemit
    exact scans_keep rfl hlevels hpending
  unfold readLineBreak at h
  simp only at h
  split at h
  · exact hnewline (lexer.enterLine text) rfl rfl h
  · split at h
    · cases h
    · split at h
      · exact hnewline (lexer.enterLine text) rfl rfl h
      · have hplaced : (lexer.enterLine text).Scans token after := placeLine_scans h
        exact hplaced

theorem placeLine_ok (lexer : Lexer) (width : Nat) :
    ∃ token after, lexer.placeLine width = (.ok token, after) := by
  unfold placeLine
  simp only
  split
  · exact ⟨_, _, rfl⟩
  · split
    · exact ⟨_, _, rfl⟩
    · exact ⟨_, _, rfl⟩

/-- What a step that fails does: the cause is one of two, and levels and pending tokens are left as
    they are. -/
structure Fails (lexer : Lexer) (fault : LexicalFault) (after : Lexer) : Prop where
  cause : fault.cause = .mixedIndentation ∨ fault.cause = .unterminatedAttributes
  levels : after.levels = lexer.levels
  pending : after.pending = lexer.pending

theorem readLineBreak_fails (h : lexer.readLineBreak text = (.error fault, after)) :
    lexer.Fails fault after := by
  unfold readLineBreak at h
  simp only at h
  split at h
  · cases h
  · split at h
    · cases h
      exact ⟨.inl rfl, rfl, rfl⟩
    · split at h
      · cases h
      · -- a line of any width can be placed
        obtain ⟨token, last, hplace⟩ := placeLine_ok (lexer.enterLine text)
          (widthIn (styleFor lexer.lock text) text)
        exact nomatch congrArg Prod.fst (hplace.symm.trans h)

/-! ## Scans of a line -/

theorem readAttributes_scans (h : lexer.readAttributes text = (.ok token, after)) :
    lexer.Scans token after := by
  unfold readAttributes at h
  split at h
  · cases h
  · cases h
    exact scans_keep rfl rfl rfl

theorem readAttributes_fails (h : lexer.readAttributes text = (.error fault, after)) :
    lexer.Fails fault after := by
  unfold readAttributes at h
  split at h
  · cases h
    exact ⟨.inr rfl, rfl, rfl⟩
  · cases h

theorem readRawLine_scans (h : lexer.readRawLine = (.ok token, after)) :
    lexer.Scans token after := by
  cases h
  exact scans_keep rfl rfl rfl

theorem readForm_scans (h : lexer.readForm = (.ok token, after)) : lexer.Scans token after := by
  unfold readForm at h
  split at h
  · cases h
  · next found hfound =>
      cases h
      refine ⟨_, .keep (TokenKind.keepsLevel_of_content (Form.first?_kind hfound)) ?_, rfl⟩
      intro follower hfollower
      split at hfollower
      · obtain rfl := List.mem_singleton.mp hfollower
        rfl
      · exact nomatch hfollower

/-- A line always has a form. -/
theorem readForm_ok {c : Char} (hinput : lexer.input = c :: text) (hc : c ≠ '\n') :
    ∃ token after, lexer.readForm = (.ok token, after) := by
  obtain ⟨found, hfound⟩ := Form.first?_line hc text
  unfold readForm
  rw [hinput, hfound]
  exact ⟨_, _, rfl⟩

/-! ## The step -/

/-- Text that is left is scanned for a token. -/
theorem scanLine_scans (hinput : lexer.input ≠ []) (h : lexer.scanLine = (.ok token, after)) :
    lexer.Scans token after := by
  unfold scanLine at h
  split at h
  · next hend => exact absurd hend hinput
  · exact readLineBreak_scans h
  · split at h
    · exact readRawLine_scans h
    · split at h
      · exact readAttributes_scans h
      · exact readForm_scans h

theorem scanLine_fails (h : lexer.scanLine = (.error fault, after)) : lexer.Fails fault after := by
  unfold scanLine at h
  split at h
  · unfold readEnd at h
    split at h
    all_goals cases h
  · exact readLineBreak_fails h
  · next c text hc hinput =>
      split at h
      · cases h
      · split at h
        · exact readAttributes_fails h
        · obtain ⟨token, last, hform⟩ := readForm_ok hinput (by rintro rfl; exact hc rfl)
          exact nomatch congrArg Prod.fst (hform.symm.trans h)

/-- A blank line leaves the line feed at its end. -/
theorem afterBlankLine?_break {rest : List Char} (h : afterBlankLine? text = some rest) :
    ∃ more, rest = '\n' :: more := by
  unfold afterBlankLine? at h
  split at h
  · simp only [Option.ite_none_right_eq_some, Option.some.injEq, beq_iff_eq] at h
    obtain ⟨hhead, rfl⟩ := h
    exact List.head?_eq_some_iff.mp hhead
  · exact nomatch h

/-- Skipping blank lines goes on to a line break. -/
theorem skipBlankLines_break (fuel : Nat) : ∀ (lexer : Lexer) {text : List Char},
    lexer.input = '\n' :: text →
      ∃ text' line', lexer.skipBlankLines fuel
        = { lexer with input := '\n' :: text', line := line' } := by
  induction fuel with
  | zero =>
      intro lexer text hinput
      exact ⟨text, lexer.line, by rw [← hinput]; rfl⟩
  | succ fuel ih =>
      intro lexer text hinput
      unfold skipBlankLines
      split
      · next rest hrest =>
          obtain ⟨more, rfl⟩ := afterBlankLine?_break hrest
          exact ih { lexer with input := '\n' :: more, line := lexer.line + 1 } rfl
      · exact ⟨text, lexer.line, by rw [← hinput]⟩

/-- A scan of text that is left reads the line, or a blank line of raw text, or goes on to a later
    line break. -/
theorem scan_cases (lexer : Lexer) :
    lexer.scan = lexer.scanLine
      ∨ (∃ text line', lexer.input ≠ []
          ∧ lexer.scan = { lexer with input := text, line := line' }.emit (.bare .text line'))
      ∨ ∃ text line', lexer.input ≠ []
          ∧ lexer.scan
            = { lexer with input := '\n' :: text, line := line' }.readLineBreak text := by
  unfold scan
  split
  · exact .inl rfl
  · next rest hrest =>
      -- a blank line has a line feed at its front
      have hinput : lexer.input ≠ [] := by
        intro hnil
        rw [hnil] at hrest
        exact nomatch hrest
      obtain ⟨more, rfl⟩ := afterBlankLine?_break hrest
      cases hmode : lexer.mode with
      | raw => exact .inr (.inl ⟨'\n' :: more, lexer.line + 1, hinput, rfl⟩)
      | markup =>
          obtain ⟨text, line', hskip⟩ := skipBlankLines_break ('\n' :: more).length
            { lexer with input := '\n' :: more, line := lexer.line + 1 } rfl
          rw [hmode] at hskip
          exact .inr (.inr ⟨text, line', hinput, congrArg scanLine hskip⟩)

/-- At the end of the text a level is closed, or the stream ends. -/
theorem readEnd_scans (h : lexer.readEnd = (.ok token, after)) :
    lexer.Scans token after ∨ (lexer.levels = [] ∧ token = lexer.token .eos ∧ after = lexer) := by
  unfold readEnd at h
  split at h
  · next hlevels =>
      cases h
      exact .inr ⟨hlevels, rfl, rfl⟩
  · next innermost levels hlevels =>
      cases h
      refine .inl ⟨[], ?_, (List.append_nil _).symm⟩
      rw [hlevels]
      exact .closes innermost [] rfl

theorem scan_scans (h : lexer.scan = (.ok token, after)) :
    lexer.Scans token after
      ∨ (lexer.input = [] ∧ lexer.levels = [] ∧ token = lexer.token .eos ∧ after = lexer) := by
  rcases scan_cases lexer with hscan | ⟨text, line', -, hscan⟩ | ⟨text, line', -, hscan⟩
  · rw [hscan] at h
    by_cases hinput : lexer.input = []
    · rw [scanLine, hinput] at h
      exact (readEnd_scans h).imp_right fun hend => ⟨hinput, hend⟩
    · exact .inl (scanLine_scans hinput h)
  · rw [hscan] at h
    cases h
    exact .inl (scans_keep rfl rfl rfl)
  · rw [hscan] at h
    have hscans : Scans { lexer with input := '\n' :: text, line := line' } token after :=
      readLineBreak_scans h
    exact .inl hscans

theorem scan_fails (h : lexer.scan = (.error fault, after)) : lexer.Fails fault after := by
  rcases scan_cases lexer with hscan | ⟨text, line', -, hscan⟩ | ⟨text, line', -, hscan⟩
  · exact scanLine_fails (hscan.symm.trans h)
  · exact nomatch congrArg Prod.fst (hscan.symm.trans h)
  · obtain ⟨hcause, hlevels, hpending⟩ := readLineBreak_fails (hscan.symm.trans h)
    exact ⟨hcause, hlevels, hpending⟩

/-- A step that finds no pending token and no blank line reads the line. -/
theorem next_eq_scanLine (hpending : lexer.pending = [])
    (hblank : afterBlankLine? lexer.input = none) : lexer.next = lexer.scanLine := by
  unfold next scan
  rw [hpending, hblank]

theorem next_eq_readEnd (hpending : lexer.pending = []) (hinput : lexer.input = []) :
    lexer.next = lexer.readEnd := by
  rw [next_eq_scanLine hpending (by rw [hinput]; rfl)]
  unfold scanLine
  rw [hinput]

/-- At the end of the text the innermost level is closed. -/
theorem next_close {innermost : Nat} {levels : List Nat} (hpending : lexer.pending = [])
    (hinput : lexer.input = []) (hlevels : lexer.levels = innermost :: levels) :
    lexer.next = (.ok (lexer.token .outdent), { lexer with levels }) := by
  rw [next_eq_readEnd hpending hinput]
  unfold readEnd
  rw [hlevels]
  rfl

/-- **Everything a step can do**: it gives a pending token, or scans the text for one, or ends the
    stream. -/
theorem next_cases (h : lexer.next = (.ok token, after)) :
    (lexer.pending = token :: after.pending ∧ after.levels = lexer.levels)
      ∨ (lexer.pending = [] ∧ lexer.Scans token after)
      ∨ (lexer.Finished ∧ token = lexer.token .eos ∧ after = lexer) := by
  unfold next at h
  split at h
  · next waiting pending hpending =>
      cases h
      exact .inl ⟨hpending, rfl⟩
  · next hpending =>
      rcases scan_scans h with hscans | ⟨hinput, hlevels, htoken, hafter⟩
      · exact .inr (.inl ⟨hpending, hscans⟩)
      · exact .inr (.inr ⟨⟨hinput, hlevels, hpending⟩, htoken, hafter⟩)

/-- A step leaves followers pending, if only followers were. -/
theorem next_follows (hpending : ∀ t ∈ lexer.pending, t.Follows)
    (h : lexer.next = (.ok token, after)) : ∀ t ∈ after.pending, t.Follows := by
  rcases next_cases h with ⟨hwaiting, -⟩ | ⟨-, followers, hstep, hafter⟩ | ⟨-, -, rfl⟩
  · exact fun t ht => hpending t (hwaiting ▸ List.mem_cons_of_mem _ ht)
  · intro t ht
    rw [hafter] at ht
    exact (List.mem_append.mp ht).elim (hpending t) (hstep.follows t)
  · exact hpending

/-- The end of the stream is said when it has been reached. -/
theorem next_eos (hpending : ∀ t ∈ lexer.pending, t.Follows)
    (h : lexer.next = (.ok token, after)) (heos : token.kind = .eos) :
    lexer.Finished ∧ after = lexer := by
  rcases next_cases h with ⟨hwaiting, -⟩ | ⟨-, followers, hstep, -⟩ | ⟨hfinished, -, hafter⟩
  · have hfollows := hpending token (hwaiting ▸ List.mem_cons_self)
    rw [Token.Follows, heos] at hfollows
    exact hfollows.elim (nomatch ·) (nomatch ·)
  · exact absurd heos hstep.ne_eos
  · exact ⟨hfinished, hafter⟩

/-- **A step fails for one of two causes.** -/
theorem next_fault (h : lexer.next = (.error fault, after)) : lexer.Fails fault after := by
  unfold next at h
  split at h
  · cases h
  · exact scan_fails h

/-- When the stream has ended, every step says so. -/
theorem Finished.next (h : lexer.Finished) : lexer.next = (.ok (lexer.token .eos), lexer) := by
  unfold Lexer.next
  rw [h.pending]
  simp only [scan, scanLine, readEnd, afterBlankLine?, h.input, h.levels]
  rfl

end Lexer

end Stencil
