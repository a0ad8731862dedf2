import Stencil.Proofs.Lexer.Balance
import Stencil.Proofs.Lexer.Lines
import Stencil.Proofs.Lexer.RawLines

/-! # Line numbers — the line, the text that is left, and the tokens

    The last line of a source is the current one and the lines that are left
    (`Lexer.lastLine`).  Line feeds are taken by blank lines, line breaks and
    attribute lists, each of which moves the line on by as many; everything else
    stays in its line.  So no step changes the last line, whether it gives a
    token or fails (`next_counts`).

    `Numbered tokens lexer` says that the lines of the tokens that came out so
    far never decrease, the followers of the last scan included, and are none
    past the current one.  A step keeps it, and so does every session that puts
    tokens in on the line of the token taken last (`lines_counted`). -/

namespace Stencil

namespace Lexer

/-- The number of the last line: the current one, and those that are left. -/
def lastLine (lexer : Lexer) : Nat := lexer.line + Text.countNewlines lexer.input

/-- The line of a token, or of a failure. -/
def lineOf : Except LexicalFault Token → Int
  | .ok token => token.line
  | .error fault => fault.line

variable {lexer middle after : Lexer} {token : Token} {fault : LexicalFault} {text : List Char}

/-! ## What a step does to the line -/

/-- A lexer that has gone on in the text. -/
structure Onward (lexer after : Lexer) : Prop where
  lastLine : after.lastLine = lexer.lastLine
  line : lexer.line ≤ after.line

/-- A lexer that has gone on in the text, with the same tokens pending. -/
structure Moves (lexer after : Lexer) : Prop extends Onward lexer after where
  pending : after.pending = lexer.pending

/-- An operation goes on in the text, its result is on a line between, and what follows is on the
    current line. -/
structure Counts (lexer : Lexer) (outcome : Outcome Token) : Prop where
  lastLine : outcome.2.lastLine = lexer.lastLine
  start : (lexer.line : Int) ≤ lineOf outcome.1
  finish : lineOf outcome.1 ≤ outcome.2.line
  followers : ∃ followers, outcome.2.pending = lexer.pending ++ followers
    ∧ ∀ t ∈ followers, t.line = outcome.2.line

theorem Onward.refl (lexer : Lexer) : Onward lexer lexer := ⟨rfl, Nat.le_refl _⟩

theorem Onward.trans (h : lexer.Onward middle) (hafter : middle.Onward after) :
    lexer.Onward after :=
  ⟨hafter.lastLine.trans h.lastLine, Nat.le_trans h.line hafter.line⟩

theorem Moves.refl (lexer : Lexer) : Moves lexer lexer := ⟨.refl lexer, rfl⟩

theorem Moves.trans (h : lexer.Moves middle) (hafter : middle.Moves after) : lexer.Moves after :=
  ⟨h.toOnward.trans hafter.toOnward, hafter.pending.trans h.pending⟩

theorem Counts.onward {outcome : Outcome Token} (h : lexer.Counts outcome) :
    lexer.Onward outcome.2 :=
  ⟨h.lastLine, Int.ofNat_le.mp (Int.le_trans h.start h.finish)⟩

theorem Moves.counts {outcome : Outcome Token} (h : lexer.Moves middle)
    (hcounts : middle.Counts outcome) : lexer.Counts outcome where
  lastLine := hcounts.lastLine.trans h.lastLine
  start := Int.le_trans (Int.ofNat_le.mpr h.line) hcounts.start
  finish := hcounts.finish
  followers := h.pending ▸ hcounts.followers

/-- A token that is given out after going on, on the line that was reached. -/
theorem Moves.emit (h : lexer.Moves after) (hline : token.line = after.line) :
    lexer.Counts (after.emit token) where
  lastLine := h.lastLine
  start := Int.le_trans (Int.ofNat_le.mpr h.line) (Int.le_of_eq hline.symm)
  finish := Int.le_of_eq hline
  followers := ⟨[], by rw [List.append_nil]; exact h.pending, nofun⟩

/-- A token of the current line and its followers leave the text as it is. -/
theorem counts_emit {followers : List Token} (hlast : after.lastLine = lexer.lastLine)
    (hline : after.line = lexer.line) (hpending : after.pending = lexer.pending ++ followers)
    (htoken : token.line = lexer.line) (hfollowers : ∀ t ∈ followers, t.line = lexer.line) :
    lexer.Counts (after.emit token) where
  lastLine := hlast
  start := Int.le_of_eq htoken.symm
  finish := Int.le_of_eq (htoken.trans (congrArg _ hline.symm))
  followers := ⟨followers, hpending, fun t ht => (hfollowers t ht).trans (congrArg _ hline.symm)⟩

/-- A token of the current line. -/
theorem counts_token (lexer : Lexer) (lexeme : Lexeme) :
    lexer.Counts (lexer.emit ⟨lexer.line, lexeme⟩) :=
  (Moves.refl lexer).emit rfl

theorem counts_fail (lexer : Lexer) (cause : LexicalCause) : lexer.Counts (lexer.fail cause) where
  lastLine := rfl
  start := Int.le_refl _
  finish := Int.le_refl _
  followers := ⟨[], (List.append_nil _).symm, nofun⟩

/-- A rest of the line leaves as many lines. -/
theorem moves_keepsLine {rest : List Char} (h : Text.KeepsLine lexer.input rest) :
    lexer.Moves { lexer with input := rest } :=
  ⟨⟨congrArg (lexer.line + ·) h.countNewlines, Nat.le_refl _⟩, rfl⟩

/-! ## Line breaks -/

theorem keepsLine_drop_widthIn (style : IndentStyle) (text : List Char) :
    Text.KeepsLine text (text.drop (widthIn style text)) := by
  refine ⟨_, (replicate_append_drop_widthIn style text).symm, fun hmem => ?_⟩
  have hchar : '\n' = style.char := List.eq_of_mem_replicate hmem
  cases style <;> exact absurd hchar (by decide)

theorem enterLine_moves (hinput : lexer.input = '\n' :: text) :
    lexer.Moves (lexer.enterLine text) := by
  refine ⟨⟨?_, Nat.le_succ _⟩, rfl⟩
  have hrest := (keepsLine_drop_widthIn (styleFor lexer.lock text) text).countNewlines
  simp only [lastLine, enterLine, hinput, hrest, Text.countNewlines_cons_break]
  omega

theorem placeLine_counts (lexer : Lexer) (width : Nat) : lexer.Counts (lexer.placeLine width) := by
  unfold placeLine
  simp only
  split
  · -- every outdent is on the line that closes the levels
    exact counts_emit rfl rfl rfl rfl fun t ht => (List.eq_of_mem_replicate ht) ▸ rfl
  · split
    · exact Moves.emit ⟨⟨rfl, Nat.le_refl _⟩, rfl⟩ rfl
    · exact counts_token _ _

theorem readLineBreak_counts (hinput : lexer.input = '\n' :: text) :
    lexer.Counts (lexer.readLineBreak text) := by
  have hentered := enterLine_moves hinput
  have hnewline : (lexer.enterLine text).Counts
      ((lexer.enterLine text).emit ((lexer.enterLine text).token .newline)) :=
    counts_token _ _
  unfold readLineBreak
  simp only
  split
  · exact hentered.counts hnewline
  · split
    · exact hentered.counts (counts_fail _ _)
    · split
      · exact hentered.counts hnewline
      · exact hentered.counts (placeLine_counts _ _)

/-! ## Scans of a line -/

/-- An attribute list moves the line on by the line feeds in it. -/
theorem readAttributes_counts {c : Char} (hinput : lexer.input = c :: text) (hc : c ≠ '\n') :
    lexer.Counts (lexer.readAttributes text) := by
  unfold readAttributes
  split
  · exact counts_fail lexer _
  · next body rest hgroup =>
      refine ⟨?_, Int.le_refl _, Int.ofNat_le.mpr (Nat.le_add_right _ _),
        [], (List.append_nil _).symm, nofun⟩
      have hopening := (Text.keepsLine_cons hc text).countNewlines
      have hrest := (Form.closed_keepsLine rest).countNewlines
      have hclosing : Text.countNewlines text
          = Text.countNewlines body + Text.countNewlines rest := by
        rw [(group?_eq_some_iff.mp hgroup).2, Text.countNewlines, List.count_append,
          List.count_cons_of_ne (by decide)]
        rfl
      simp only [lastLine, emit, hinput, hrest, ← hopening, hclosing]
      omega

theorem readRawLine_counts (lexer : Lexer) : lexer.Counts lexer.readRawLine :=
  (moves_keepsLine (Text.keepsLine_splitLine lexer.input)).emit rfl

theorem readEnd_counts (lexer : Lexer) : lexer.Counts lexer.readEnd := by
  unfold readEnd
  split
  · exact counts_token _ _
  · exact Moves.emit ⟨⟨rfl, Nat.le_refl _⟩, rfl⟩ rfl

theorem readForm_counts (lexer : Lexer) : lexer.Counts lexer.readForm := by
  unfold readForm
  split
  · exact counts_fail lexer _
  · next found hfound =>
      have hlast := (moves_keepsLine (Form.first?_keepsLine hfound)).lastLine
      refine counts_emit hlast rfl rfl rfl fun t ht => ?_
      -- a colon is on the line of its element
      split at ht
      · exact List.mem_singleton.mp ht ▸ rfl
      · exact nomatch ht

theorem scanLine_counts (lexer : Lexer) : lexer.Counts lexer.scanLine := by
  unfold scanLine
  split
  · exact readEnd_counts lexer
  · next hinput => exact readLineBreak_counts hinput
  · next c text hc hinput =>
      split
      · exact readRawLine_counts lexer
      · split
        · exact readAttributes_counts hinput (by rintro rfl; exact hc rfl)
        · exact readForm_counts lexer

/-! ## Blank lines and the step -/

/-- A blank line takes one line feed. -/
theorem afterBlankLine?_moves {rest : List Char} (h : afterBlankLine? lexer.input = some rest) :
    lexer.Moves { lexer with input := rest, line := lexer.line + 1 } := by
  obtain ⟨count, more, -, hinput⟩ := afterBlankLine?_spaces h
  refine ⟨⟨?_, Nat.le_succ _⟩, rfl⟩
  have hspaces : Text.KeepsLine (List.replicate count ' ' ++ rest) rest :=
    ⟨_, rfl, fun hmem => absurd (List.eq_of_mem_replicate hmem) (by decide)⟩
  simp only [lastLine, hinput, Text.countNewlines_cons_break, hspaces.countNewlines]
  omega

theorem skipBlankLines_moves (fuel : Nat) (lexer : Lexer) :
    lexer.Moves (lexer.skipBlankLines fuel) := by
  induction fuel generalizing lexer with
  | zero => exact .refl lexer
  | succ fuel ih =>
      unfold skipBlankLines
      split
      · next rest hrest => exact (afterBlankLine?_moves hrest).trans (ih _)
      · exact .refl lexer

theorem scan_counts (lexer : Lexer) : lexer.Counts lexer.scan := by
  unfold scan
  split
  · exact scanLine_counts lexer
  · next rest hrest =>
      have hblank := afterBlankLine?_moves hrest
      simp only
      split
      · exact hblank.counts (counts_token _ _)
      · exact (hblank.trans (skipBlankLines_moves rest.length _)).counts (scanLine_counts _)

/-- **A step counts the lines it takes**, whether it gives a token or fails. -/
theorem next_counts (hpending : lexer.pending = []) : lexer.Counts lexer.next := by
  unfold next
  rw [hpending]
  exact scan_counts lexer

/-- A step goes on in the text. -/
theorem next_onward (lexer : Lexer) : lexer.Onward lexer.next.2 := by
  rcases hpending : lexer.pending with - | ⟨first, pending⟩
  · exact (next_counts hpending).onward
  · unfold next
    rw [hpending]
    exact ⟨rfl, Nat.le_refl _⟩

/-! ## The tokens that came out of the text -/

/-- Tokens whose lines never decrease. -/
def InOrder (tokens : List Token) : Prop := tokens.Pairwise fun first second =>
  first.line ≤ second.line

/-- The lines of these tokens and of the pending ones never decrease, and are none past the current
    one. -/
structure Numbered (tokens : List Token) (lexer : Lexer) : Prop where
  first : 1 ≤ lexer.line
  inOrder : InOrder (tokens ++ lexer.pending)
  bounds : ∀ t ∈ tokens ++ lexer.pending, 1 ≤ t.line ∧ t.line ≤ lexer.line

variable {tokens front back : List Token} {line : Int}

/-- Tokens up to a line, and then tokens from that line on. -/
theorem inOrder_append (h : InOrder front) (hback : InOrder back)
    (hupto : ∀ t ∈ front, t.line ≤ line) (hfrom : ∀ t ∈ back, line ≤ t.line) :
    InOrder (front ++ back) :=
  List.pairwise_append.mpr ⟨h, hback, fun t ht u hu => Int.le_trans (hupto t ht) (hfrom u hu)⟩

/-- Tokens of one line are in order. -/
theorem inOrder_of_line (h : ∀ t ∈ tokens, t.line = line) : InOrder tokens :=
  List.pairwise_of_forall_mem_list fun t ht u hu => Int.le_of_eq ((h t ht).trans (h u hu).symm)

theorem numbered_ofSource (source : String) (colons : Bool) :
    Numbered [] (ofSource source colons) :=
  ⟨Nat.le_refl 1, List.Pairwise.nil, nofun⟩

/-- The numbers are those of the line and the pending tokens. -/
theorem Numbered.congr (h : Numbered tokens lexer) (hline : after.line = lexer.line)
    (hpending : after.pending = lexer.pending) : Numbered tokens after :=
  ⟨hline ▸ h.first, hpending ▸ h.inOrder, by rw [hline, hpending]; exact h.bounds⟩

/-- A token that is read from the text is on a line from the current one on, and its followers are
    on the line after the step. -/
theorem next_lines (hpending : lexer.pending = []) (hnext : lexer.next = (.ok token, after)) :
    lexer.line ≤ token.line ∧ token.line ≤ after.line
      ∧ ∀ t ∈ after.pending, t.line = after.line := by
  have hcounts := next_counts hpending
  rw [hnext] at hcounts
  obtain ⟨followers, hafter, hfollowers⟩ := hcounts.followers
  rw [hpending, List.nil_append] at hafter
  exact ⟨hcounts.start, hcounts.finish, fun t ht => hfollowers t (hafter ▸ ht)⟩

/-- A step that fails does so on the line it has reached. -/
theorem next_fault_line (hnext : lexer.next = (.error fault, after)) :
    lexer.line ≤ fault.line ∧ fault.line ≤ after.line := by
  rcases hpending : lexer.pending with - | ⟨first, pending⟩
  · have hcounts := next_counts hpending
    rw [hnext] at hcounts
    exact ⟨Int.ofNat_le.mp hcounts.start, Int.ofNat_le.mp hcounts.finish⟩
  · unfold Lexer.next at hnext
    rw [hpending] at hnext
    cases hnext

/-- **A step keeps the numbers in order**: its token comes behind those that came out before. -/
theorem Numbered.next (h : Numbered tokens lexer) (hnext : lexer.next = (.ok token, after)) :
    Numbered (tokens ++ [token]) after := by
  obtain ⟨hfirst, hinOrder, hbounds⟩ := h
  rcases hpending : lexer.pending with - | ⟨waiting, pending⟩
  · obtain ⟨hstart, hfinish, hfollowers⟩ := next_lines hpending hnext
    rw [hpending, List.append_nil] at hinOrder hbounds
    have hlater : ∀ t ∈ token :: after.pending, token.line ≤ t.line ∧ t.line ≤ after.line := by
      intro t ht
      rcases List.mem_cons.mp ht with rfl | ht
      · exact ⟨Int.le_refl _, hfinish⟩
      · rw [hfollowers t ht]
        exact ⟨hfinish, Int.le_refl _⟩
    have hback : InOrder (token :: after.pending) :=
      List.pairwise_cons.mpr ⟨fun t ht => (hlater t (List.mem_cons_of_mem _ ht)).1,
        inOrder_of_line hfollowers⟩
    refine ⟨by omega, ?_, ?_⟩
    · rw [List.append_assoc]
      exact inOrder_append hinOrder hback (fun t ht => (hbounds t ht).2)
        fun t ht => Int.le_trans hstart (hlater t ht).1
    · intro t ht
      rw [List.append_assoc] at ht
      rcases List.mem_append.mp ht with ht | ht
      · have := hbounds t ht
        omega
      · have := hlater t ht
        omega
  · -- a pending token is given out, and was in order before
    unfold Lexer.next at hnext
    rw [hpending] at hnext hinOrder hbounds
    cases hnext
    refine ⟨hfirst, ?_, ?_⟩
    · rw [List.append_assoc]
      exact hinOrder
    · rw [List.append_assoc]
      exact hbounds

/-- A step that fails keeps the numbers in order. -/
theorem Numbered.fail (h : Numbered tokens lexer) (hnext : lexer.next = (.error fault, after)) :
    Numbered tokens after := by
  have hpending := (next_fault hnext).pending
  obtain ⟨hstart, hfinish⟩ := next_fault_line hnext
  refine ⟨Nat.le_trans h.first (Nat.le_trans hstart hfinish), hpending ▸ h.inOrder, ?_⟩
  intro t ht
  have := h.bounds t (hpending ▸ ht)
  omega

/-- Looking ahead keeps the numbers in order: what comes out of the text goes behind the stash. -/
theorem Numbered.stock (count : Nat) : ∀ {lexer : Lexer}, Numbered (tokens ++ lexer.stash) lexer →
    Numbered (tokens ++ (lexer.stock count).2.stash) (lexer.stock count).2
      ∧ (lexer.stock count).2.deferred = lexer.deferred := by
  induction count with
  | zero => exact fun h => ⟨h, rfl⟩
  | succ count ih =>
      intro lexer h
      unfold Lexer.stock
      rcases hnext : lexer.next with ⟨fault | token, after⟩
      all_goals obtain ⟨hdeferred, hstash⟩ := next_queues hnext
      · refine ⟨?_, hdeferred⟩
        show Numbered (tokens ++ after.stash) after
        rw [hstash]
        exact h.fail hnext
      · let stocked : Lexer := { after with stash := after.stash ++ [token] }
        have hnumbered : Numbered (tokens ++ stocked.stash) stocked := by
          show Numbered (tokens ++ (after.stash ++ [token])) _
          rw [hstash, ← List.append_assoc]
          exact (h.next hnext).congr rfl rfl
        obtain ⟨hstocked, hdefer⟩ := ih hnumbered
        exact ⟨hstocked, hdefer.trans hdeferred⟩

/-! ## Sessions -/

/-- The line of the token taken last, or the first line. -/
def placeOf (tokens : List Token) : Int := (tokens.getLast?.map Token.line).getD 1

/-- A call that puts a token in puts it on a line. -/
def Call.PutsOn (line : Int) : Call → Prop
  | .defer token => token.line = line
  | _ => True

/-- Every token that is put in is on the line of the token taken last. -/
def PutsInPlace : List Token → List (Call × Answer) → Prop
  | _, [] => True
  | tokens, entry :: answers =>
      entry.1.PutsOn (placeOf tokens) ∧ PutsInPlace (tokens ++ takenBy entry) answers

instance decidablePutsOn (line : Int) : (call : Call) → Decidable (call.PutsOn line)
  | .defer token => inferInstanceAs (Decidable (token.line = line))
  | .advance => isTrue trivial
  | .lookahead _ => isTrue trivial
  | .switch _ => isTrue trivial

instance decidablePutsInPlace : (tokens : List Token) → (answers : List (Call × Answer)) →
    Decidable (PutsInPlace tokens answers)
  | _, [] => isTrue trivial
  | tokens, entry :: answers =>
      have := decidablePutsInPlace (tokens ++ takenBy entry) answers
      inferInstanceAs (Decidable (_ ∧ _))

theorem placeOf_concat (tokens : List Token) (token : Token) :
    placeOf (tokens ++ [token]) = token.line := by
  rw [placeOf, List.getLast?_concat]
  rfl

/-- The numbers of a session: the tokens that were taken come first, then those that were put in,
    which are on the line of the one taken last, and then the stash. -/
structure InPlace (tokens : List Token) (lexer : Lexer) : Prop where
  numbered : Numbered (tokens ++ lexer.deferred ++ lexer.stash) lexer
  place : ∀ t ∈ lexer.deferred, t.line = placeOf tokens

theorem inPlace_ofSource (source : String) (colons : Bool) : InPlace [] (ofSource source colons) :=
  ⟨numbered_ofSource source colons, nofun⟩

theorem InPlace.advance (h : InPlace tokens lexer) :
    InPlace (tokens ++ takenBy (.advance, (Call.advance.perform lexer).1))
      (Call.advance.perform lexer).2 := by
  obtain ⟨hnumbered, hplace⟩ := h
  rcases hdeferred : lexer.deferred with - | ⟨first, deferred⟩
  · rw [hdeferred, List.append_nil] at hnumbered
    rcases hstash : lexer.stash with - | ⟨first, stash⟩
    · -- the token comes out of the text
      have hadvance : lexer.advance = lexer.next := by
        unfold Lexer.advance
        rw [hdeferred, hstash]
      rw [hstash, List.append_nil] at hnumbered
      rcases hnext : lexer.next with ⟨fault | token, after⟩
      · obtain ⟨hdefer, hsame⟩ := next_queues hnext
        rw [perform_advance_of_error (hadvance.trans hnext)]
        refine ⟨?_, fun t ht => nomatch hdeferred ▸ hdefer ▸ ht⟩
        show Numbered ((tokens ++ []) ++ after.deferred ++ after.stash) after
        rw [hdefer, hdeferred, hsame, hstash]
        simp only [List.append_nil]
        exact hnumbered.fail hnext
      · obtain ⟨hdefer, hsame⟩ := next_queues hnext
        rw [perform_advance_of_ok (hadvance.trans hnext)]
        refine ⟨?_, fun t ht => nomatch hdeferred ▸ hdefer ▸ ht⟩
        show Numbered ((tokens ++ [token]) ++ after.deferred ++ after.stash) after
        rw [hdefer, hdeferred, hsame, hstash, List.append_nil, List.append_nil]
        exact hnumbered.next hnext
    · -- the token was looked at before
      have hadvance : lexer.advance = { lexer with stash }.emit first := by
        unfold Lexer.advance
        rw [hdeferred, hstash]
      rw [perform_advance_of_ok hadvance]
      refine ⟨?_, fun t ht => nomatch hdeferred ▸ ht⟩
      show Numbered ((tokens ++ [first]) ++ lexer.deferred ++ stash) _
      rw [hdeferred, List.append_nil, List.append_assoc]
      rw [hstash] at hnumbered
      exact hnumbered.congr rfl rfl
  · -- the token was put in, as were those behind it
    have hadvance : lexer.advance = { lexer with deferred }.emit first := by
      unfold Lexer.advance
      rw [hdeferred]
    rw [hdeferred] at hnumbered hplace
    rw [perform_advance_of_ok hadvance]
    refine ⟨?_, fun t ht => ?_⟩
    · show Numbered ((tokens ++ [first]) ++ deferred ++ lexer.stash) _
      rw [List.append_assoc tokens]
      exact hnumbered.congr rfl rfl
    · show t.line = placeOf (tokens ++ [first])
      rw [placeOf_concat, hplace t (List.mem_cons_of_mem _ ht), hplace first List.mem_cons_self]

theorem InPlace.lookahead (h : InPlace tokens lexer) (distance : Int) :
    InPlace tokens (lexer.lookahead distance).2 := by
  unfold Lexer.lookahead
  split
  · exact h
  · rw [peekAt_after]
    obtain ⟨hstocked, hdeferred⟩ := h.numbered.stock
      (distance.toNat - 1 + 1 - (lexer.deferred.length + lexer.stash.length))
    refine ⟨?_, ?_⟩
    · rw [hdeferred]
      exact hstocked
    · rw [hdeferred]
      exact h.place

/-- The line of the token taken last is behind those of the tokens taken, and before those of the
    tokens that wait. -/
theorem placeOf_between (h : Numbered (tokens ++ back) lexer) :
    (∀ t ∈ tokens, t.line ≤ placeOf tokens) ∧ (∀ t ∈ back ++ lexer.pending, placeOf tokens ≤ t.line)
      ∧ 1 ≤ placeOf tokens ∧ placeOf tokens ≤ lexer.line := by
  obtain ⟨hfirst, hinOrder, hbounds⟩ := h
  rcases List.eq_nil_or_concat tokens with rfl | ⟨others, last, rfl⟩
  · refine ⟨nofun, fun t ht => (hbounds t ht).1, Int.le_refl 1, ?_⟩
    exact Int.ofNat_le.mpr hfirst
  · rw [List.concat_eq_append] at hinOrder hbounds ⊢
    rw [placeOf_concat]
    rw [List.append_assoc] at hinOrder hbounds
    have hparts := List.pairwise_append.mp hinOrder
    have hlast := hbounds last (List.mem_append_left _ (List.mem_append_right _ List.mem_cons_self))
    refine ⟨fun t ht => ?_, fun t ht => ?_, hlast⟩
    · rcases List.mem_append.mp ht with ht | ht
      · exact (List.pairwise_append.mp hparts.1).2.2 t ht last List.mem_cons_self
      · exact Int.le_of_eq (congrArg _ (List.mem_singleton.mp ht))
    · exact hparts.2.2 last (List.mem_append_right _ List.mem_cons_self) t ht

theorem InPlace.defer (h : InPlace tokens lexer) (hline : token.line = placeOf tokens) :
    InPlace tokens (lexer.defer token) := by
  obtain ⟨⟨hfirst, hinOrder, hbounds⟩, hplace⟩ := h
  have hbetween : Numbered (tokens ++ (lexer.deferred ++ lexer.stash)) lexer := by
    rw [← List.append_assoc]
    exact ⟨hfirst, hinOrder, hbounds⟩
  obtain ⟨hupto, hfrom, hline1, hline2⟩ := placeOf_between hbetween
  -- the token goes in behind the deferred ones, in front of the stash
  have hsplit : tokens ++ (lexer.deferred ++ [token]) ++ lexer.stash ++ lexer.pending
      = (tokens ++ lexer.deferred) ++ token :: (lexer.stash ++ lexer.pending) := by simp
  rw [List.append_assoc (tokens ++ lexer.deferred)] at hinOrder hbounds
  have hparts := List.pairwise_append.mp hinOrder
  refine ⟨⟨hfirst, ?_, ?_⟩, ?_⟩
  · show InOrder (tokens ++ (lexer.deferred ++ [token]) ++ lexer.stash ++ lexer.pending)
    rw [hsplit]
    have hback : InOrder (token :: (lexer.stash ++ lexer.pending)) := by
      refine List.pairwise_cons.mpr ⟨fun t ht => ?_, hparts.2.1⟩
      rw [hline]
      exact hfrom t (by simpa [or_assoc] using Or.inr (List.mem_append.mp ht))
    have hbefore : ∀ t ∈ tokens ++ lexer.deferred, t.line ≤ placeOf tokens := fun t ht =>
      (List.mem_append.mp ht).elim (hupto t) fun hmem => Int.le_of_eq (hplace t hmem)
    refine inOrder_append hparts.1 hback hbefore fun t ht => ?_
    rcases List.mem_cons.mp ht with rfl | ht
    · exact Int.le_of_eq hline.symm
    · exact hfrom t (by simpa [or_assoc] using Or.inr (List.mem_append.mp ht))
  · intro t ht
    replace ht : t ∈ tokens ++ (lexer.deferred ++ [token]) ++ lexer.stash ++ lexer.pending := ht
    rw [hsplit] at ht
    rcases List.mem_append.mp ht with ht | ht
    · exact hbounds t (List.mem_append_left _ ht)
    · rcases List.mem_cons.mp ht with rfl | ht
      · rw [hline]
        exact ⟨hline1, hline2⟩
      · exact hbounds t (List.mem_append_right _ ht)
  · intro t ht
    rcases List.mem_append.mp ht with ht | ht
    · exact hplace t ht
    · rw [List.mem_singleton.mp ht, hline]

/-- **A call keeps the numbers in order**, if a token that it puts in is in its place. -/
theorem InPlace.perform (h : InPlace tokens lexer) {call : Call}
    (hcall : call.PutsOn (placeOf tokens)) :
    InPlace (tokens ++ takenBy (call, (call.perform lexer).1)) (call.perform lexer).2 := by
  cases call with
  | advance => exact h.advance
  | lookahead distance =>
      show InPlace (tokens ++ []) (lexer.lookahead distance).2
      rw [List.append_nil]
      exact h.lookahead distance
  | defer token =>
      show InPlace (tokens ++ []) (lexer.defer token)
      rw [List.append_nil]
      exact h.defer hcall
  | switch mode =>
      show InPlace (tokens ++ []) { lexer with mode }
      rw [List.append_nil]
      exact ⟨h.numbered.congr rfl rfl, h.place⟩

theorem InPlace.run {calls : List Call} : ∀ {tokens : List Token} {lexer : Lexer},
    InPlace tokens lexer → PutsInPlace tokens (run calls lexer).1 →
      InPlace (tokens ++ taken (Lexer.run calls lexer).1) (Lexer.run calls lexer).2 := by
  induction calls with
  | nil =>
      intro tokens lexer h _
      rwa [Lexer.run, taken, List.flatMap_nil, List.append_nil]
  | cons call calls ih =>
      intro tokens lexer h hputs
      rw [run_cons] at hputs
      have hrest := ih (h.perform hputs.1) hputs.2
      rwa [List.append_assoc] at hrest

/-- A session that puts nothing in puts nothing in the wrong place. -/
theorem putsInPlace_of_reads {calls : List Call} (hcalls : ∀ call ∈ calls, call.Reads) :
    ∀ {tokens : List Token} {lexer : Lexer}, PutsInPlace tokens (run calls lexer).1 := by
  induction calls with
  | nil => exact trivial
  | cons call calls ih =>
      intro tokens lexer
      rw [run_cons]
      refine ⟨?_, ih fun call hcall => hcalls call (List.mem_cons_of_mem _ hcall)⟩
      cases call with
      | defer token => exact absurd rfl (hcalls _ List.mem_cons_self token)
      | advance => exact trivial
      | lookahead distance => exact trivial
      | switch mode => exact trivial

/-! ## The current line and the last -/

theorem stock_onward (count : Nat) (lexer : Lexer) : lexer.Onward (lexer.stock count).2 := by
  induction count generalizing lexer with
  | zero => exact .refl lexer
  | succ count ih =>
      have hnext := next_onward lexer
      unfold Lexer.stock
      split
      · next token after hok =>
          rw [hok] at hnext
          have hstocked : lexer.Onward { after with stash := after.stash ++ [token] } :=
            ⟨hnext.lastLine, hnext.line⟩
          exact hstocked.trans (ih _)
      · next fault after herror =>
          rw [herror] at hnext
          exact hnext

theorem advance_onward (lexer : Lexer) : lexer.Onward lexer.advance.2 := by
  unfold Lexer.advance
  split
  · exact ⟨rfl, Nat.le_refl _⟩
  · split
    · exact ⟨rfl, Nat.le_refl _⟩
    · exact next_onward lexer

theorem peekAt_onward (lexer : Lexer) (offset : Nat) : lexer.Onward (lexer.peekAt offset).2 := by
  rw [peekAt_after]
  exact stock_onward _ lexer

/-- **Every call goes on in the text**, whether it fails or not. -/
theorem perform_onward (call : Call) (lexer : Lexer) : lexer.Onward (call.perform lexer).2 := by
  cases call with
  | advance => exact advance_onward lexer
  | lookahead distance =>
      show lexer.Onward (lexer.lookahead distance).2
      unfold Lexer.lookahead
      split
      · exact .refl lexer
      · exact peekAt_onward lexer _
  | defer token => exact ⟨rfl, Nat.le_refl _⟩
  | switch mode => exact ⟨rfl, Nat.le_refl _⟩

theorem run_onward (calls : List Call) (lexer : Lexer) : lexer.Onward (run calls lexer).2 := by
  induction calls generalizing lexer with
  | nil => exact .refl lexer
  | cons call calls ih => exact (perform_onward call lexer).trans (ih _)

/-- **Lines are counted.**  In every state of a lexer, the lines before the current one and the
    line feeds that are left are the line feeds of the source, whatever was switched or put in and
    whether calls failed.  So if tokens are put in on the line of the token taken last, or none is,
    then all tokens, taken or waiting, are on lines of the source, in order. -/
theorem lines_counted (source : String) (colons : Bool) (calls : List Call) :
    let breaks := Text.countNewlines (Text.normalizeNewlines source.toList)
    let answers := (run calls (ofSource source colons)).1
    let lexer := (run calls (ofSource source colons)).2
    let tokens := taken answers ++ lexer.deferred ++ lexer.stash ++ lexer.pending
    1 ≤ lexer.line
      ∧ lexer.line - 1 + Text.countNewlines lexer.input = breaks
      ∧ (PutsInPlace [] answers →
        (∀ t ∈ tokens, 1 ≤ t.line ∧ t.line ≤ (breaks + 1 : Nat)) ∧ InOrder tokens) := by
  intro breaks answers lexer tokens
  have honward := run_onward calls (ofSource source colons)
  have hfirst : 1 ≤ lexer.line := honward.line
  have hlast : lexer.line + Text.countNewlines lexer.input = 1 + breaks := honward.lastLine
  have hle : lexer.line ≤ breaks + 1 := by omega
  refine ⟨hfirst, by omega, fun hputs => ?_⟩
  have hnumbered := ((inPlace_ofSource source colons).run hputs).numbered
  refine ⟨fun t ht => ?_, hnumbered.inOrder⟩
  obtain ⟨hfrom, hupto⟩ := hnumbered.bounds t ht
  exact ⟨hfrom, Int.le_trans hupto (Int.ofNat_le.mpr hle)⟩

/-- An attribute list over two lines, a blank line, and an indentation that fails. -/
def brokenLines : String := "a(b\r\n c)\n\n  d: e\n \tf\ng"

/-- The calls that look at the element behind the colon, put one in for the token taken last, and go
    on past the failure. -/
def shorthandCalls : List Call :=
  [.advance, .advance, .advance, .advance, .lookahead 2, .defer ⟨4, .tag "div" false⟩, .advance,
   .advance, .advance, .advance, .switch .raw, .advance, .advance]

theorem lines_counted_shorthand :
    let answers := (run shorthandCalls (ofSource brokenLines)).1
    let lexer := (run shorthandCalls (ofSource brokenLines)).2
    let tokens := taken answers ++ lexer.deferred ++ lexer.stash ++ lexer.pending
    PutsInPlace [] answers
      ∧ tokens.map Token.line = [1, 1, 4, 4, 4, 4, 4, 5, 6]
      ∧ (∀ t ∈ tokens, 1 ≤ t.line ∧ t.line ≤ 6)
      ∧ InOrder tokens := by
  have hputs : PutsInPlace [] (run shorthandCalls (ofSource brokenLines)).1 := by decide +kernel
  exact ⟨hputs, by decide +kernel, (lines_counted brokenLines false shorthandCalls).2.2 hputs⟩

end Lexer

end Stencil
