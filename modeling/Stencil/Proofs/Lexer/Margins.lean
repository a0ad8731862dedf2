import Stencil.Proofs.Lexer.RawLines

/-! # Margins — how deep the lines of a raw body stand

    A line of a raw body is written with some indentation beyond that of the
    first line.  The lexer does not keep it: it keeps the levels that are open,
    and a line stands at the innermost of them.  A line that is deeper opens a
    level of its own, and one that is not closes those that are deeper
    (`settle`), so that it may be left at a level that is less deep than the
    line (`lay`).  Blank lines stand wherever the line before them does.

    So every line stands as deep as it is written exactly when each one is as
    deep as the line before it or deeper, or goes back to a depth that is still
    open, and blank lines only follow lines without more indentation than the
    first (`Steady`, `lay_eq_iff`).

    The tokens of a body are told apart by the levels that are open at them
    (`Lays`); `reads_body` shows that the lexer gives the tokens of the lines as
    they are laid. -/

namespace Stencil

/-! ## Lines of a body -/

/-- What stands on a line of a raw body behind its indentation. -/
structure RawLine where
  text : List Char
  begins : Begins text
  oneLine : '\n' ∉ text

/-- A line of a raw body behind the first one. -/
inductive BodyLine where
  /-- A line with nothing on it but spaces. -/
  | blank (spaces : Nat)
  /-- A line that is indented further than the first one by `extra`. -/
  | text (extra : Nat) (line : RawLine)

/-- A line with spaces in front of it. -/
def indented (margin : Nat) (line : List Char) : List Char := List.replicate margin ' ' ++ line

theorem indented_inj {margin margin' : Nat} {line : List Char} :
    indented margin line = indented margin' line ↔ margin = margin' := by
  constructor
  · intro h
    have hlength := congrArg List.length h
    simpa [indented] using hlength
  · rintro rfl
    rfl

namespace BodyLine

/-- A line as it is written, with the line feed before it. -/
def write (style : IndentStyle) (width : Nat) : BodyLine → List Char
  | blank spaces => '\n' :: List.replicate spaces ' '
  | text extra line => '\n' :: (List.replicate (width + extra) style.char ++ line.text)

/-- A line with the indentation that it has beyond that of the first one. -/
def relative : BodyLine → List Char
  | blank _ => []
  | text extra line => indented extra line.text

/-- The levels that are open at a line, innermost first and without that of the first line, from
    those at the line before. -/
def settle (margins : List Nat) (extra : Nat) : List Nat :=
  if margins.headD 0 < extra then extra :: margins else margins.dropWhile (extra < ·)

/-- The lines as they stand at the open levels. -/
def lay : List Nat → List BodyLine → List (List Char)
  | _, [] => []
  | margins, blank _ :: lines => indented (margins.headD 0) [] :: lay margins lines
  | margins, text extra line :: lines =>
      indented ((settle margins extra).headD 0) line.text :: lay (settle margins extra) lines

/-- Lines that go back to no depth but one that is still open, and blank lines behind lines that
    are as deep as the first one.  `earlier` are the depths of the lines before, the last one
    first. -/
def Steady : List Nat → List BodyLine → Prop
  | _, [] => True
  | earlier, blank _ :: lines => earlier.headD 0 = 0 ∧ Steady earlier lines
  | earlier, text extra _ :: lines =>
      (earlier.headD 0 ≤ extra ∨ (earlier.dropWhile (extra < ·)).headD 0 = extra)
        ∧ Steady (extra :: earlier) lines

instance decidableSteady : (earlier : List Nat) → (lines : List BodyLine) →
    Decidable (Steady earlier lines)
  | _, [] => inferInstanceAs (Decidable True)
  | earlier, blank _ :: lines =>
      have := decidableSteady earlier lines
      inferInstanceAs (Decidable (_ ∧ _))
  | earlier, text extra _ :: lines =>
      have := decidableSteady (extra :: earlier) lines
      inferInstanceAs (Decidable (_ ∧ _))

/-! ## Levels and depths -/

section Depths

variable {margins earlier : List Nat} {extra : Nat}

theorem settle_of_lt (h : margins.headD 0 < extra) : settle margins extra = extra :: margins :=
  if_pos h

theorem settle_of_le (h : extra ≤ margins.headD 0) :
    settle margins extra = margins.dropWhile (extra < ·) :=
  if_neg (Nat.not_lt.mpr h)

/-- No level is left that is deeper than the line. -/
theorem headD_settle_le (margins : List Nat) (extra : Nat) :
    (settle margins extra).headD 0 ≤ extra := by
  rcases Nat.lt_or_ge (margins.headD 0) extra with hlt | hle
  · rw [settle_of_lt hlt]
    exact Nat.le_refl _
  · rw [settle_of_le hle]
    have hnot := List.head?_dropWhile_not (fun margin => decide (extra < margin)) margins
    rcases hdrop : margins.dropWhile (extra < ·) with - | ⟨margin, others⟩
    · exact Nat.zero_le _
    · rw [hdrop] at hnot
      simpa using hnot

/-- A line that is as deep as the line before it leaves the levels as they are. -/
theorem settle_of_eq (h : margins.headD 0 = extra) : settle margins extra = margins := by
  rw [settle_of_le (Nat.le_of_eq h.symm)]
  cases margins with
  | nil => rfl
  | cons margin margins => exact List.dropWhile_cons_of_neg (by simpa using Nat.le_of_eq h)

/-- The open levels are those that the depths of the lines before leave open: at each depth the
    last line that is no deeper is the innermost level that is no deeper. -/
structure Reflects (margins earlier : List Nat) : Prop where
  innermost : margins.headD 0 = earlier.headD 0
  upTo : ∀ bound, (margins.dropWhile (bound < ·)).headD 0
    = (earlier.dropWhile (bound < ·)).headD 0

theorem reflects_nil : Reflects [] [] := ⟨rfl, fun _ => rfl⟩

/-- A line stands as deep as it is written. -/
theorem Reflects.settle_iff (h : Reflects margins earlier) :
    (settle margins extra).headD 0 = extra
      ↔ earlier.headD 0 ≤ extra ∨ (earlier.dropWhile (extra < ·)).headD 0 = extra := by
  rw [← h.innermost, ← h.upTo]
  rcases Nat.lt_or_ge (margins.headD 0) extra with hlt | hle
  · rw [settle_of_lt hlt]
    exact iff_of_true rfl (.inl hlt.le)
  · rw [settle_of_le hle]
    refine ⟨.inr, fun hor => hor.elim (fun hge => ?_) id⟩
    have hsame : margins.headD 0 = extra := Nat.le_antisymm hge hle
    rw [← settle_of_le hle, settle_of_eq hsame]
    exact hsame

/-- What is deeper than one bound and what is deeper than a smaller one. -/
theorem dropWhile_dropWhile_of_lt {bound : Nat} (h : bound < extra) (margins : List Nat) :
    (margins.dropWhile (extra < ·)).dropWhile (bound < ·) = margins.dropWhile (bound < ·) := by
  induction margins with
  | nil => rfl
  | cons margin margins ih =>
      by_cases hmargin : extra < margin
      · rw [List.dropWhile_cons_of_pos (by simpa using hmargin), ih,
          List.dropWhile_cons_of_pos (by simpa using h.trans hmargin)]
      · rw [List.dropWhile_cons_of_neg (by simpa using hmargin)]

/-- **A line that stands as deep as it is written** is the next of the lines before. -/
theorem Reflects.cons (h : Reflects margins earlier)
    (hstands : (settle margins extra).headD 0 = extra) :
    Reflects (settle margins extra) (extra :: earlier) := by
  refine ⟨hstands, fun bound => ?_⟩
  by_cases hbound : bound < extra
  · rw [List.dropWhile_cons_of_pos (by simpa using hbound), ← h.upTo]
    rcases Nat.lt_or_ge (margins.headD 0) extra with hlt | hle
    · rw [settle_of_lt hlt, List.dropWhile_cons_of_pos (by simpa using hbound)]
    · rw [settle_of_le hle, dropWhile_dropWhile_of_lt hbound]
  · rw [List.dropWhile_cons_of_neg (by simpa using hbound)]
    rcases hsettle : settle margins extra with - | ⟨margin, others⟩
    · rw [hsettle] at hstands
      exact hstands
    · rw [hsettle] at hstands
      obtain rfl : margin = extra := hstands
      rw [List.dropWhile_cons_of_neg (by simpa using hbound)]
      rfl

/-- **Every line stands as deep as it is written exactly when the lines are steady.** -/
theorem Reflects.lay_eq_iff {lines : List BodyLine} (h : Reflects margins earlier) :
    lay margins lines = lines.map relative ↔ Steady earlier lines := by
  induction lines generalizing margins earlier with
  | nil => exact iff_of_true rfl trivial
  | cons line lines ih =>
      cases line with
      | blank spaces =>
          have hblank : indented (margins.headD 0) [] = [] ↔ earlier.headD 0 = 0 := by
            rw [← h.innermost, ← @indented_inj _ _ []]
            rfl
          rw [lay, List.map_cons, relative, List.cons_eq_cons, hblank, ih h, Steady]
      | text extra line =>
          rw [lay, List.map_cons, relative, List.cons_eq_cons, indented_inj, Steady,
            ← h.settle_iff]
          exact and_congr_right fun hstands => ih (h.cons hstands)

theorem lay_eq_iff {lines : List BodyLine} :
    lay [] lines = lines.map relative ↔ Steady [] lines :=
  reflects_nil.lay_eq_iff

end Depths

end BodyLine

/-! ## Tokens of a body -/

namespace Lexer

open BodyLine

/-- The tokens of a raw body up to the outdent that leads out of it, and the lines that they say.
    The levels that are open are given innermost first, and a line stands as deep as the innermost
    of them is beyond the base. -/
inductive Lays (base : Nat) : List Nat → List Token → List (List Char) → Prop where
  | done : Lays base [] [] []
  | line {level : Nat} {levels : List Nat} {token : Token} {tokens : List Token}
      {lines : List (List Char)} (kind : token.kind = .text)
      (rest : Lays base (level :: levels) tokens lines) :
      Lays base (level :: levels) (token :: tokens)
        (indented (level - base) token.value.toList :: lines)
  | newline {level : Nat} {levels : List Nat} {token : Token} {tokens : List Token}
      {lines : List (List Char)} (kind : token.kind = .newline)
      (rest : Lays base (level :: levels) tokens lines) :
      Lays base (level :: levels) (token :: tokens) lines
  | indent {deeper level : Nat} {levels : List Nat} {token : Token} {tokens : List Token}
      {lines : List (List Char)} (lexeme : token.lexeme = .indent deeper) (wider : base < deeper)
      (rest : Lays base (deeper :: level :: levels) tokens lines) :
      Lays base (level :: levels) (token :: tokens) lines
  | outdent {level : Nat} {levels : List Nat} {token : Token} {tokens : List Token}
      {lines : List (List Char)} (kind : token.kind = .outdent)
      (rest : Lays base levels tokens lines) :
      Lays base (level :: levels) (token :: tokens) lines

variable {base : Nat} {lexer after : Lexer} {token : Token} {tokens : List Token}
  {style : IndentStyle} {width : Nat} {margins : List Nat} {text rest : List Char}
  {lines : List BodyLine} {texts : List (List Char)}

/-- Outdents close as many levels as they are. -/
theorem Lays.outdents {levels closed : List Nat} {outdents : List Token}
    (h : Lays base levels tokens texts) (hkind : ∀ t ∈ outdents, t.kind = .outdent)
    (hlength : outdents.length = closed.length) :
    Lays base (closed ++ levels) (outdents ++ tokens) texts := by
  induction outdents generalizing closed with
  | nil =>
      obtain rfl := List.length_eq_zero_iff.mp hlength.symm
      exact h
  | cons outdent outdents ih =>
      obtain ⟨hhead, htail⟩ := List.forall_mem_cons.mp hkind
      obtain ⟨level, closed, rfl⟩ := List.exists_cons_of_length_eq_add_one hlength.symm
      exact .outdent hhead (ih htail (Nat.succ.inj hlength))

/-- No token of a body ends the stream. -/
theorem Lays.countOpen {levels : List Nat} (h : Lays base levels tokens texts) :
    countOpen tokens = tokens.length := by
  induction h with
  | done => rfl
  | line kind _ ih => rw [countOpen_cons_of_ne (by simp [kind]), ih, List.length_cons]
  | newline kind _ ih => rw [countOpen_cons_of_ne (by simp [kind]), ih, List.length_cons]
  | indent lexeme _ _ ih =>
      rw [countOpen_cons_of_ne (by simp [Token.kind, lexeme, Lexeme.kind]), ih, List.length_cons]
  | outdent kind _ ih => rw [countOpen_cons_of_ne (by simp [kind]), ih, List.length_cons]

/-! ## Reading the lines -/

/-- The widths of the levels that are open in a body, with that of its first line. -/
def bodyLevels (width : Nat) (margins : List Nat) : List Nat :=
  margins.map (width + ·) ++ [width]

theorem bodyLevels_eq_cons (width : Nat) (margins : List Nat) :
    ∃ outer, bodyLevels width margins = (width + margins.headD 0) :: outer := by
  cases margins with
  | nil => exact ⟨[], rfl⟩
  | cons margin margins => exact ⟨_, rfl⟩

/-- A line stands at the innermost of the open levels. -/
theorem Lays.textLine {line : List Char} (h : Lays width (bodyLevels width margins) tokens texts)
    (hkind : token.kind = .text) (hvalue : token.value.toList = line) :
    Lays width (bodyLevels width margins) (token :: tokens)
      (indented (margins.headD 0) line :: texts) := by
  obtain ⟨inner, hinner⟩ := bodyLevels_eq_cons width margins
  rw [hinner] at h ⊢
  have hline := h.line hkind
  rwa [hvalue, Nat.add_sub_cancel_left] at hline

/-- A lexer in a raw body whose first line is of a width, with the margins that are open. -/
structure InBody (style : IndentStyle) (width : Nat) (margins : List Nat) (lexer : Lexer) :
    Prop where
  mode : lexer.mode = .raw
  lock : ∃ line, lexer.lock = some ⟨style, line⟩
  pending : lexer.pending = []
  levels : ∃ outer, lexer.levels = margins.map (width + ·) ++ width :: outer

theorem InBody.withInput (h : InBody style width margins lexer) (input : List Char) (line : Nat) :
    InBody style width margins { lexer with input, line } :=
  ⟨h.mode, h.lock, h.pending, h.levels⟩

/-- A line is taken as it stands. -/
theorem InBody.next_line (h : InBody style width margins lexer) (line : RawLine)
    (hinput : lexer.input = line.text ++ rest) (hends : EndsLine rest) :
    lexer.next
      = (.ok (lexer.token .text (String.ofList line.text)), { lexer with input := rest }) := by
  obtain ⟨c, more, htext, -, hnewline⟩ := line.begins
  have hcons : lexer.input = c :: (more ++ rest) := by rw [hinput, htext, List.cons_append]
  have hsplit : Text.splitLine lexer.input = (line.text, rest) := by
    rw [hinput]
    exact splitLine_line (fun d hd => ne_of_mem_of_not_mem hd line.oneLine) hends
  have hblank : afterBlankLine? lexer.input = none := by
    rw [hcons]
    simp [afterBlankLine?, hnewline]
  have hscan : lexer.scanLine = lexer.readRawLine := by
    unfold scanLine
    rw [hcons, h.mode]
    simp
  rw [next_eq_scanLine h.pending hblank, hscan, readRawLine, hsplit]
  rfl

/-- A blank line is an empty text. -/
theorem InBody.next_blank (h : InBody style width margins lexer) {spaces : Nat}
    (hinput : lexer.input = '\n' :: (List.replicate spaces ' ' ++ '\n' :: rest)) :
    lexer.next = (.ok (.bare .text (lexer.line + 1 : Nat)),
      { lexer with input := '\n' :: rest, line := lexer.line + 1 }) := by
  have hblank : afterBlankLine? lexer.input = some ('\n' :: rest) := by
    have hdrop : Text.dropSpaces (List.replicate spaces ' ' ++ '\n' :: rest) = '\n' :: rest :=
      dropWhile_line (fun c hc => by simp [List.eq_of_mem_replicate hc]) (by rintro _ ⟨rfl⟩; rfl)
    rw [hinput, afterBlankLine?, hdrop]
    rfl
  have hscan : lexer.next = lexer.scan := by
    unfold next
    rw [h.pending]
  rw [hscan]
  simp only [scan, hblank]
  split
  · rfl
  · next hmarkup => cases h.mode.symm.trans hmarkup

/-- A line break leads to the next line. -/
theorem InBody.next_break (h : InBody style width margins lexer) {found : Nat}
    (hbegins : Begins text)
    (hinput : lexer.input = '\n' :: (List.replicate found style.char ++ text)) :
    ∃ token after followers, lexer.next = (.ok token, after) ∧ after.input = text
      ∧ Enters lexer.levels found text token after.levels followers ∧ after.pending = followers
      ∧ after.mode = .raw ∧ ∃ line, after.lock = some ⟨style, line⟩ := by
  obtain ⟨line, hlock⟩ := h.lock
  have hstyle : styleFor lexer.lock (List.replicate found style.char ++ text) = style := by
    rw [hlock]
    rfl
  have hwidth := hbegins.widthIn style found
  have hdrop : (List.replicate found style.char ++ text).drop found = text :=
    List.drop_left' List.length_replicate
  have hentered :
      (lexer.enterLine (List.replicate found style.char ++ text)).input = text := by
    show (List.replicate found style.char ++ text).drop _ = text
    rw [hstyle, hwidth, hdrop]
  obtain ⟨token, after, hplace⟩ :=
    placeLine_ok (lexer.enterLine (List.replicate found style.char ++ text)) found
  have hread : lexer.readLineBreak (List.replicate found style.char ++ text)
      = (.ok token, after) := by
    obtain ⟨c, more, rfl, hc, hnewline⟩ := hbegins
    unfold readLineBreak
    simp only [hentered, hstyle, hwidth]
    rw [Text.isIndentation] at hc
    simp only [hc, beq_eq_false_iff_ne.mpr hnewline]
    exact hplace
  have hnext : lexer.next = (.ok token, after) := by
    rw [next_eq_scanLine h.pending (hinput ▸ hbegins.afterBlankLine? style found), ← hread]
    simp only [scanLine, hinput]
  obtain ⟨⟨followers, henters, hpending⟩, hindentation, hmode, hsettled⟩ :=
    readLineBreak_lineBreak hread
  rw [hstyle, hwidth] at henters hindentation
  have hafter : after.input = text := List.append_cancel_left hindentation
  refine ⟨token, after, followers, hnext, hafter, hafter ▸ henters, ?_, hmode.trans h.mode,
    line, ?_⟩
  · rw [hpending, h.pending, List.nil_append]
  · rw [hsettled, enterLine, hlock]
    rfl

/-- The levels that a line leaves open when it is no deeper than the line before. -/
theorem dropWhile_bodyLevels (width : Nat) {extra : Nat} (h : extra ≤ margins.headD 0) :
    (margins.map (width + ·)).dropWhile (width + extra < ·)
      = (settle margins extra).map (width + ·) := by
  have hbelow : ((width + extra < ·) ∘ (width + ·) : Nat → Bool) = (extra < ·) := by
    funext margin
    simp
  rw [List.dropWhile_map, hbelow, settle_of_le h]

/-- The levels that such a line closes, and those that it leaves open. -/
theorem bodyLevels_eq_append (width : Nat) {extra : Nat} (h : extra ≤ margins.headD 0) :
    bodyLevels width margins
      = (margins.map (width + ·)).takeWhile (width + extra < ·)
        ++ bodyLevels width (settle margins extra) := by
  rw [bodyLevels, bodyLevels, ← dropWhile_bodyLevels width h, ← List.append_assoc,
    List.takeWhile_append_dropWhile]

/-- A line that is less deep than the line before closes a level. -/
theorem length_closed_pos (width : Nat) {extra : Nat} (h : extra < margins.headD 0) :
    0 < ((margins.map (width + ·)).takeWhile (width + extra < ·)).length := by
  cases margins with
  | nil => exact absurd h (Nat.not_lt_zero extra)
  | cons margin margins =>
      have hdeeper : width + extra < width + margin := Nat.add_lt_add_left h width
      rw [List.map_cons, List.takeWhile_cons_of_pos (by simpa using hdeeper), List.length_cons]
      exact Nat.succ_pos _

/-- **A line break into a line** opens and closes levels until the line stands at the innermost. -/
theorem InBody.reads_break (h : InBody style width margins lexer) {extra : Nat}
    (hbegins : Begins text)
    (hinput : lexer.input = '\n' :: (List.replicate (width + extra) style.char ++ text)) :
    ∃ tokens after, Reads lexer tokens after ∧ after.input = text
      ∧ InBody style width (settle margins extra) after
      ∧ ∀ {more : List Token} {texts : List (List Char)},
        Lays width (bodyLevels width (settle margins extra)) more texts →
          Lays width (bodyLevels width margins) (tokens ++ more) texts := by
  obtain ⟨token, after, followers, hnext, hafter, henters, hfollowers, hmode, hlock⟩ :=
    h.next_break hbegins hinput
  obtain ⟨outer, hlevels⟩ := h.levels
  obtain ⟨inner, hinner⟩ := bodyLevels_eq_cons width margins
  have hhead : lexer.levels.headD 0 = width + margins.headD 0 := by
    rw [hlevels]
    cases margins <;> rfl
  generalize hopen : after.levels = opened at henters
  cases henters with
  | blank hends => exact absurd hends hbegins.not_endsLine
  | sibling _ hsame hkind =>
      rw [settle_of_eq (by omega)]
      refine ⟨[token], after, .take hnext (.done _), hafter,
        ⟨hmode, hlock, hfollowers, outer, hopen.trans hlevels⟩, fun hmore => ?_⟩
      rw [hinner] at hmore ⊢
      exact .newline hkind hmore
  | deeper _ hwider hlexeme =>
      rw [settle_of_lt (by omega)]
      refine ⟨[token], after, .take hnext (.done _), hafter,
        ⟨hmode, hlock, hfollowers, outer, ?_⟩, fun hmore => ?_⟩
      · rw [hopen, hlevels]
        rfl
      · rw [bodyLevels, List.map_cons, List.cons_append, ← bodyLevels, hinner] at hmore
        rw [hinner]
        exact .indent hlexeme (by omega) hmore
  | shallower _ hnarrower hkind =>
      have hlt : extra < margins.headD 0 := by omega
      have hwidth : (decide (width + extra < width)) = false := by simp
      rw [hlevels, takeWhile_levels hwidth] at hfollowers
      refine ⟨_, _, .take hnext (reads_pending (hfollowers.trans (List.append_nil _).symm)), hafter,
        ⟨hmode, hlock, rfl, outer, ?_⟩, fun hmore => ?_⟩
      · rw [← dropWhile_bodyLevels width hlt.le, ← dropWhile_levels hwidth, ← hlevels]
        exact hopen
      · rw [bodyLevels_eq_append width hlt.le]
        refine hmore.outdents (List.forall_mem_cons.mpr ⟨hkind, fun t ht => ?_⟩) ?_
        · exact List.eq_of_mem_replicate ht ▸ hkind
        · rw [List.length_cons, List.length_replicate]
          exact Nat.sub_add_cancel (length_closed_pos width hlt)

/-! ## The end of a body -/

/-- What ends a body: the end of the text, behind a line that is not blank; a last line break; or a
    line that is narrower. -/
inductive EndsBody (style : IndentStyle) (width : Nat) (lines : List BodyLine) :
    List Char → Prop where
  | text (visible : ∀ spaces, lines.getLast? ≠ some (.blank spaces)) : EndsBody style width lines []
  | lineBreak (count : Nat) :
      EndsBody style width lines ('\n' :: List.replicate count style.char)
  | narrower (count : Nat) (left : List Char) (lt : count < width) (begins : Begins left) :
      EndsBody style width lines ('\n' :: (List.replicate count style.char ++ left))

theorem EndsBody.tail {line : BodyLine} (h : EndsBody style width (line :: lines) rest) :
    EndsBody style width lines rest := by
  cases h with
  | text visible =>
      refine .text fun spaces hlast => visible spaces ?_
      rw [List.getLast?_cons, hlast]
      rfl
  | lineBreak count => exact .lineBreak count
  | narrower count left lt begins => exact .narrower count left lt begins

/-- The lines of a body behind the first one, and what ends it. -/
def textOf (style : IndentStyle) (width : Nat) (lines : List BodyLine) (rest : List Char) :
    List Char :=
  lines.flatMap (write style width) ++ rest

/-- A line ends before other lines, or where the body does. -/
theorem EndsBody.endsLine (h : EndsBody style width lines rest) :
    EndsLine (textOf style width lines rest) := by
  rcases lines with - | ⟨line, lines⟩
  · cases h with
    | text => exact nofun
    | lineBreak count => exact fun c hc => (Option.some.inj hc).symm
    | narrower count left => exact fun c hc => (Option.some.inj hc).symm
  · cases line <;> exact fun c hc => (Option.some.inj hc).symm

/-- Behind a blank line there is a line feed. -/
theorem EndsBody.exists_cons {spaces : Nat}
    (h : EndsBody style width (.blank spaces :: lines) rest) :
    ∃ more, textOf style width lines rest = '\n' :: more := by
  rcases lines with - | ⟨line, lines⟩
  · cases h with
    | text visible => exact absurd rfl (visible spaces)
    | lineBreak count => exact ⟨_, rfl⟩
    | narrower count left => exact ⟨_, rfl⟩
  · cases line <;> exact ⟨_, rfl⟩

/-- At the end of the text all levels of a body are closed. -/
theorem InBody.reads_close (h : InBody style width margins lexer) (hinput : lexer.input = []) :
    ∃ tokens last, Reads lexer tokens last ∧ Lays width (bodyLevels width margins) tokens [] := by
  obtain ⟨outer, hlevels⟩ := h.levels
  induction margins generalizing lexer with
  | nil => exact ⟨_, _, .take (next_close h.pending hinput hlevels) (.done _), .outdent rfl .done⟩
  | cons margin margins ih =>
      have hafter : InBody style width margins
          { lexer with levels := margins.map (width + ·) ++ width :: outer } :=
        ⟨h.mode, h.lock, h.pending, outer, rfl⟩
      obtain ⟨tokens, last, hreads, hlays⟩ := ih hafter hinput rfl
      exact ⟨_, _, .take (next_close h.pending hinput hlevels) hreads, .outdent rfl hlays⟩

/-- A line break that nothing follows leads to the end of the text. -/
theorem InBody.next_lastBreak (h : InBody style width margins lexer) {count : Nat}
    (hinput : lexer.input = '\n' :: List.replicate count style.char) :
    ∃ token after, lexer.next = (.ok token, after) ∧ token.kind = .newline ∧ after.input = []
      ∧ InBody style width margins after := by
  obtain ⟨line, hlock⟩ := h.lock
  have hwidth : widthIn (styleFor lexer.lock (List.replicate count style.char))
      (List.replicate count style.char) = count := by
    rw [hlock]
    simp [styleFor, widthIn]
  have hentered : (lexer.enterLine (List.replicate count style.char)).input = [] := by
    show (List.replicate count style.char).drop _ = []
    rw [hwidth, List.drop_of_length_le (by rw [List.length_replicate])]
  have hblank : afterBlankLine? lexer.input = none := by
    have hhead : (Text.dropSpaces (List.replicate count style.char)).head? ≠ some '\n' := by
      intro hhead
      have hmem := List.mem_of_mem_head? (Option.mem_def.mpr hhead)
      have hchar := List.eq_of_mem_replicate ((List.dropWhile_sublist _).mem hmem)
      cases style <;> exact absurd hchar (by decide)
    rw [hinput, afterBlankLine?]
    exact if_neg (by simpa using hhead)
  refine ⟨(lexer.enterLine (List.replicate count style.char)).token .newline,
    lexer.enterLine (List.replicate count style.char), ?_, rfl, hentered, h.mode,
    ⟨line, ?_⟩, h.pending, h.levels⟩
  · rw [next_eq_scanLine h.pending hblank]
    simp only [scanLine, hinput, readLineBreak, hentered]
    rfl
  · rw [enterLine, hlock]
    rfl

/-- A narrower line closes all levels of a body, and outer ones behind them. -/
theorem InBody.reads_narrower (h : InBody style width margins lexer) {count : Nat}
    (hnarrower : count < width) (hbegins : Begins text)
    (hinput : lexer.input = '\n' :: (List.replicate count style.char ++ text)) :
    ∃ tokens last, Reads lexer tokens last ∧ Lays width (bodyLevels width margins) tokens [] := by
  obtain ⟨token, after, followers, hnext, hafter, henters, hfollowers, -⟩ :=
    h.next_break hbegins hinput
  obtain ⟨outer, hlevels⟩ := h.levels
  have hbody : lexer.levels = bodyLevels width margins ++ outer := by
    rw [hlevels, bodyLevels, List.append_assoc]
    rfl
  have hhead : count < lexer.levels.headD 0 := by
    obtain ⟨inner, hinner⟩ := bodyLevels_eq_cons width margins
    rw [hbody, hinner]
    exact Nat.lt_add_right _ hnarrower
  generalize after.levels = opened at henters
  cases henters with
  | blank hends => exact absurd hends hbegins.not_endsLine
  | sibling _ hsame => omega
  | deeper _ hwider => omega
  | shallower _ _ hkind =>
      have hall : ∀ level ∈ bodyLevels width margins, decide (count < level) = true := by
        intro level hlevel
        simp only [bodyLevels, List.mem_append, List.mem_map, List.mem_singleton] at hlevel
        rcases hlevel with ⟨margin, -, rfl⟩ | rfl <;> simp <;> omega
      have hcount : (lexer.levels.takeWhile (count < ·)).length - 1
          = margins.length + (outer.takeWhile (count < ·)).length := by
        rw [hbody, List.takeWhile_append_of_pos hall, List.length_append, bodyLevels,
          List.length_append, List.length_map, List.length_singleton]
        omega
      rw [hcount, ← List.replicate_append_replicate] at hfollowers
      refine ⟨_, _, .take hnext (reads_pending hfollowers), ?_⟩
      have hlays : Lays width (bodyLevels width margins ++ [])
          ((token :: List.replicate margins.length token) ++ []) [] := by
        refine Lays.done.outdents (List.forall_mem_cons.mpr ⟨hkind, fun t ht => ?_⟩) ?_
        · exact List.eq_of_mem_replicate ht ▸ hkind
        · simp [bodyLevels]
      rwa [List.append_nil, List.append_nil] at hlays

/-- **Where a body ends** outdents lead out of all its levels. -/
theorem InBody.reads_end (h : InBody style width margins lexer)
    (hends : EndsBody style width lines rest) (hinput : lexer.input = rest) :
    ∃ tokens last, Reads lexer tokens last ∧ Lays width (bodyLevels width margins) tokens [] := by
  cases hends with
  | text visible => exact h.reads_close hinput
  | lineBreak count =>
      obtain ⟨token, after, hnext, hkind, hafter, hbody⟩ := h.next_lastBreak hinput
      obtain ⟨tokens, last, hreads, hlays⟩ := hbody.reads_close hafter
      obtain ⟨inner, hinner⟩ := bodyLevels_eq_cons width margins
      rw [hinner] at hlays ⊢
      exact ⟨_, _, .take hnext hreads, .newline hkind hlays⟩
  | narrower count left lt begins => exact h.reads_narrower lt begins hinput

/-! ## The whole body -/

/-- **The lexer gives the tokens of the lines as they are laid**, from the end of any line on. -/
theorem InBody.reads_lines (lines : List BodyLine) : ∀ {margins : List Nat} {lexer : Lexer},
    InBody style width margins lexer → EndsBody style width lines rest →
      lexer.input = textOf style width lines rest →
        ∃ tokens last, Reads lexer tokens last
          ∧ Lays width (bodyLevels width margins) tokens (lay margins lines) := by
  induction lines with
  | nil => exact fun h hends hinput => h.reads_end hends hinput
  | cons line lines ih =>
      intro margins lexer h hends hinput
      cases line with
      | blank spaces =>
          obtain ⟨more, hmore⟩ := hends.exists_cons
          have hnext := h.next_blank (hinput.trans (by
            rw [textOf, List.flatMap_cons, List.append_assoc, ← textOf, hmore]
            rfl))
          obtain ⟨tokens, last, hreads, hlays⟩ :=
            ih (h.withInput _ _) hends.tail hmore.symm
          exact ⟨_, _, .take hnext hreads, hlays.textLine rfl rfl⟩
      | text extra line =>
          have hinput' : lexer.input = '\n' :: (List.replicate (width + extra) style.char
              ++ (line.text ++ textOf style width lines rest)) := by
            rw [hinput, textOf, List.flatMap_cons, write, textOf]
            simp
          obtain ⟨opening, middle, hopening, hmiddle, hbody, hlay⟩ :=
            h.reads_break (line.begins.append _) hinput'
          have hnext := hbody.next_line line hmiddle hends.tail.endsLine
          obtain ⟨tokens, last, hreads, hlays⟩ := ih (hbody.withInput _ _) hends.tail rfl
          exact ⟨_, _, hopening.append (.take hnext hreads),
            hlay (hlays.textLine rfl String.toList_ofList)⟩

/-- The text of a raw body behind its indent, and of what ends it. -/
def bodyText (style : IndentStyle) (width : Nat) (first : RawLine) (lines : List BodyLine)
    (rest : List Char) : List Char :=
  first.text ++ textOf style width lines rest

/-- The tokens of a whole body. -/
theorem InBody.reads_body {first : RawLine} (h : InBody style width [] lexer)
    (hends : EndsBody style width lines rest)
    (hinput : lexer.input = bodyText style width first lines rest) :
    ∃ tokens last, Reads lexer tokens last
      ∧ Lays width [width] tokens (first.text :: lay [] lines) := by
  have hnext := h.next_line first hinput hends.endsLine
  obtain ⟨tokens, last, hreads, hlays⟩ := reads_lines lines (h.withInput _ _) hends rfl
  exact ⟨_, _, .take hnext hreads, hlays.textLine rfl String.toList_ofList⟩

end Lexer

end Stencil
