import Stencil.Proofs.Lexer.Lineless
import Stencil.Proofs.Lexer.Siblings

/-! # Gaps — a blank line more between two lines

    A gap is a place between two lines of a text, and the line of spaces that may
    be put there.  Both texts go on with a tail behind the line above the gap.
    While a lexer is on the lines above, the tail does not matter
    (`next_withTail`): its step is that of a lexer whose text ends there, unless
    an attribute list does not close there.  When only blank lines are left
    above the gap, the step between statements passes all of them and the line
    that was put in, and comes to the same line in both texts (`next_across`). -/

namespace Stencil

open Text (IsBlankLine)

/-- Nothing but lines of spaces, each behind its line feed. -/
inductive BlankLines : List Char → Prop where
  | nil : BlankLines []
  | line {blank text : List Char} (line : IsBlankLine blank) (rest : BlankLines text) :
      BlankLines ('\n' :: (blank ++ text))

/-- A place between two lines, and a blank line that may be put there. -/
structure Gap where
  /-- The text above, up to the end of its last line. -/
  before : List Char
  line : List Char
  /-- The text below. -/
  after : List Char
  blank : IsBlankLine line

namespace Gap

variable (gap : Gap)

/-- What stands behind the text above: the line feed and the text below. -/
def rest : List Char := '\n' :: gap.after

/-- What stands behind the text above when the blank line is put in. -/
def wide : List Char := '\n' :: (gap.line ++ gap.rest)

/-- The text. -/
def text : List Char := gap.before ++ gap.rest

/-- The text with the blank line. -/
def widened : List Char := gap.before ++ gap.wide

theorem endsLine_rest : EndsLine gap.rest := by
  rintro _ ⟨⟩
  rfl

theorem endsLine_wide : EndsLine gap.wide := by
  rintro _ ⟨⟩
  rfl

end Gap

namespace Lexer

variable {lexer after : Lexer} {tail text : List Char} {token : Token}

/-- A lexer with a tail behind its text. -/
def withTail (lexer : Lexer) (tail : List Char) : Lexer :=
  { lexer with input := lexer.input ++ tail }

/-- An outcome with a tail behind the text that is left. -/
def Outcome.withTail {α : Type} (outcome : Outcome α) (tail : List Char) : Outcome α :=
  (outcome.1, outcome.2.withTail tail)

/-- The step stops in an attribute list that is not closed. -/
def Outcome.Unclosed {α : Type} (outcome : Outcome α) : Prop :=
  ∃ fault, outcome.1 = .error fault ∧ fault.cause = .unterminatedAttributes

/-! ## Steps on the lines above -/

section Above

variable (htail : EndsLine tail)
include htail

theorem styleFor_tail (lock : Option IndentLock) (text : List Char) :
    styleFor lock (text ++ tail) = styleFor lock text := by
  cases lock with
  | some lock => rfl
  | none =>
      unfold styleFor
      rw [head?_tail htail (by decide)]

theorem widthIn_tail (style : IndentStyle) (text : List Char) :
    widthIn style (text ++ tail) = widthIn style text := by
  have hstyle : ('\n' == style.char) = false := by cases style <;> rfl
  rw [widthIn, takeWhile_tail hstyle htail, widthIn]

theorem enterLine_withTail (lexer : Lexer) (text : List Char) :
    (lexer.withTail tail).enterLine (text ++ tail) = (lexer.enterLine text).withTail tail := by
  have hle : widthIn (styleFor lexer.lock text) text ≤ text.length :=
    (List.takeWhile_sublist _).length_le
  unfold enterLine withTail
  dsimp only
  rw [styleFor_tail htail, widthIn_tail htail, List.drop_append_of_le_length hle]

omit htail in
theorem placeLine_withTail (lexer : Lexer) (width : Nat) :
    (lexer.withTail tail).placeLine width = (lexer.placeLine width).withTail tail := by
  unfold placeLine
  dsimp only [withTail]
  split
  · rfl
  · split <;> rfl

theorem readLineBreak_withTail (lexer : Lexer) (text : List Char) :
    (lexer.withTail tail).readLineBreak (text ++ tail)
      = (lexer.readLineBreak text).withTail tail := by
  have hwidth : widthIn (styleFor (lexer.withTail tail).lock (text ++ tail)) (text ++ tail)
      = widthIn (styleFor lexer.lock text) text := by
    rw [styleFor_tail htail, widthIn_tail htail]
    rfl
  unfold readLineBreak
  dsimp only
  rw [enterLine_withTail htail, hwidth]
  generalize lexer.enterLine text = entered
  rcases hinput : entered.input with - | ⟨c, input⟩
  · rw [show (entered.withTail tail).input = tail from congrArg (· ++ tail) hinput]
    rcases tail with - | ⟨c, tail⟩
    · rfl
    · obtain rfl : c = '\n' := htail c rfl
      rfl
  · rw [show (entered.withTail tail).input = c :: (input ++ tail) from congrArg (· ++ tail) hinput]
    dsimp only
    split
    · rfl
    · split
      · rfl
      · exact placeLine_withTail entered _

theorem readAttributes_withTail (lexer : Lexer) (text : List Char) :
    (lexer.readAttributes text).Unclosed
      ∨ (lexer.withTail tail).readAttributes (text ++ tail)
        = (lexer.readAttributes text).withTail tail := by
  unfold readAttributes
  cases hgroup : group? 0 text with
  | none => exact .inl ⟨_, rfl, rfl⟩
  | some found =>
      obtain ⟨hdepth, htext⟩ := group?_eq_some_iff.mp hgroup
      have hgroup' : group? 0 (text ++ tail) = some (found.1, found.2 ++ tail) :=
        group?_eq_some_iff.mpr ⟨hdepth, by rw [htext, List.append_assoc, List.cons_append]⟩
      rw [hgroup']
      right
      dsimp only
      rw [head?_tail htail (by decide), Form.closed_tail]
      rfl

theorem readRawLine_withTail (lexer : Lexer) :
    (lexer.withTail tail).readRawLine = lexer.readRawLine.withTail tail := by
  unfold readRawLine
  rw [show (lexer.withTail tail).input = lexer.input ++ tail from rfl, splitLine_tail htail]
  rfl

theorem readForm_withTail {c : Char} (hc : c ≠ '\n') (hinput : lexer.input = c :: text) :
    (lexer.withTail tail).readForm = lexer.readForm.withTail tail := by
  obtain ⟨found, hfound⟩ := Form.first?_line hc text
  unfold readForm
  rw [show (lexer.withTail tail).input = lexer.input ++ tail from rfl, Form.first?_tail htail,
    hinput, hfound]
  rfl

/-- A scan that does not come to the end of the text. -/
theorem scanLine_withTail (hinput : lexer.input ≠ []) :
    lexer.scanLine.Unclosed ∨ (lexer.withTail tail).scanLine = lexer.scanLine.withTail tail := by
  obtain ⟨c, text, htext⟩ := List.exists_cons_of_ne_nil hinput
  have htext' : (lexer.withTail tail).input = c :: (text ++ tail) := congrArg (· ++ tail) htext
  unfold scanLine
  rw [htext, htext']
  by_cases hc : c = '\n'
  · subst hc
    exact .inr (readLineBreak_withTail htail lexer text)
  · split
    · next hnil => cases hnil
    · next hbreak => exact absurd (List.cons.inj hbreak).1 hc
    · next hcons =>
        obtain ⟨rfl, rfl⟩ := List.cons.inj hcons
        rw [show (lexer.withTail tail).mode = lexer.mode from rfl]
        split
        · exact .inr (readRawLine_withTail htail lexer)
        · split
          · exact readAttributes_withTail htail lexer _
          · exact .inr (readForm_withTail htail hc htext)

end Above

/-! ## Blank lines -/

theorem blankLines_of_afterBlankLine? {rest : List Char} (h : afterBlankLine? text = some rest)
    (hrest : BlankLines rest) : BlankLines text := by
  obtain ⟨count, more, -, rfl⟩ := afterBlankLine?_spaces h
  exact .line (by simp [IsBlankLine, Text.dropSpaces]) hrest

theorem blankLines_singleton (h : IsBlankLine text) : BlankLines ('\n' :: text) :=
  List.append_nil text ▸ .line h .nil

/-- Whether a blank line is at the front does not depend on the tail, unless nothing stands in
    front of it. -/
theorem afterBlankLine?_tail (htext : ¬ BlankLines text) (tail : List Char) :
    afterBlankLine? (text ++ tail) = (afterBlankLine? text).map (· ++ tail) := by
  rcases text with - | ⟨c, text⟩
  · exact absurd .nil htext
  · by_cases hc : c = '\n'
    · subst hc
      -- something stands behind the spaces, so the tail is not looked at
      have hline : Text.dropSpaces text ≠ [] := fun h => htext (blankLines_singleton h)
      obtain ⟨d, left, hleft⟩ := List.exists_cons_of_ne_nil hline
      have hdrop : Text.dropSpaces (text ++ tail) = Text.dropSpaces text ++ tail := by
        exact List.dropWhile_append.trans (if_neg (mt List.isEmpty_iff.mp hline))
      simp only [List.cons_append, afterBlankLine?, hdrop, hleft, List.head?_cons]
      split <;> rfl
    · rw [afterBlankLine?.eq_2 _ fun _ h => hc (List.cons.inj h).1, List.cons_append,
        afterBlankLine?.eq_2 _ fun _ h => hc (List.cons.inj h).1]
      rfl

/-- The blank lines at the front are passed, however many there are. -/
def pastBlankLines (lexer : Lexer) : Lexer := lexer.skipBlankLines lexer.input.length

/-- Fuel for all of the text is enough. -/
theorem skipBlankLines_of_le (fuel : Nat) : ∀ {lexer : Lexer} {more : Nat},
    lexer.input.length ≤ fuel → fuel ≤ more →
      lexer.skipBlankLines fuel = lexer.skipBlankLines more := by
  induction fuel with
  | zero =>
      intro lexer more hle _
      have hinput : lexer.input = [] := List.length_eq_zero_iff.mp (Nat.le_zero.mp hle)
      cases more with
      | zero => rfl
      | succ more =>
          rw [skipBlankLines, skipBlankLines, hinput]
          rfl
  | succ fuel ih =>
      intro lexer more hle hmore
      obtain ⟨more, rfl⟩ := Nat.exists_eq_succ_of_ne_zero (Nat.ne_zero_of_lt hmore)
      rw [skipBlankLines, skipBlankLines]
      split
      · next rest hrest =>
          have hlt := afterBlankLine?_length hrest
          exact ih (by dsimp only; omega) (Nat.le_of_succ_le_succ hmore)
      · rfl

theorem pastBlankLines_of_some {rest : List Char}
    (h : afterBlankLine? lexer.input = some rest) :
    lexer.pastBlankLines
      = { lexer with input := rest, line := lexer.line + 1 }.skipBlankLines rest.length := by
  have hlt := afterBlankLine?_length h
  obtain ⟨count, hcount⟩ := Nat.exists_eq_succ_of_ne_zero (Nat.ne_zero_of_lt hlt)
  rw [pastBlankLines, hcount, skipBlankLines, h]
  exact (skipBlankLines_of_le _ (Nat.le_refl _) (Nat.le_of_lt_succ (hcount ▸ hlt))).symm

theorem pastBlankLines_of_none (h : afterBlankLine? lexer.input = none) :
    lexer.pastBlankLines = lexer := by
  unfold pastBlankLines
  cases lexer.input.length with
  | zero => rfl
  | succ count => rw [skipBlankLines, h]

/-- **Between statements** a scan passes the blank lines and scans what is there. -/
theorem scan_markup (hmode : lexer.mode = .markup) :
    lexer.scan = lexer.pastBlankLines.scanLine := by
  unfold scan
  cases hblank : afterBlankLine? lexer.input with
  | none => rw [pastBlankLines_of_none hblank]
  | some rest =>
      rw [pastBlankLines_of_some hblank]
      dsimp only
      rw [hmode]

/-! ## Across the gap -/

theorem skipBlankLines_withTail (tail : List Char) (fuel : Nat) : ∀ {lexer : Lexer},
    ¬ BlankLines lexer.input →
      (lexer.withTail tail).skipBlankLines fuel = (lexer.skipBlankLines fuel).withTail tail
        ∧ ¬ BlankLines (lexer.skipBlankLines fuel).input := by
  induction fuel with
  | zero => exact fun h => ⟨rfl, h⟩
  | succ fuel ih =>
      intro lexer h
      have htail := afterBlankLine?_tail h tail
      rw [skipBlankLines, skipBlankLines,
        show (lexer.withTail tail).input = lexer.input ++ tail from rfl, htail]
      cases hblank : afterBlankLine? lexer.input with
      | none => exact ⟨rfl, h⟩
      | some rest =>
          have hrest : ¬ BlankLines rest := fun hrest => 
            h (blankLines_of_afterBlankLine? hblank hrest)
          have hlexer : ¬ BlankLines { lexer with input := rest, line := lexer.line + 1 }.input :=
            hrest
          exact ih hlexer

theorem pastBlankLines_above (tail : List Char) (hinput : ¬ BlankLines lexer.input) :
    (lexer.withTail tail).pastBlankLines = lexer.pastBlankLines.withTail tail
      ∧ ¬ BlankLines lexer.pastBlankLines.input := by
  have hskip := skipBlankLines_withTail tail (lexer.withTail tail).input.length hinput
  have hpast : lexer.skipBlankLines (lexer.withTail tail).input.length
      = lexer.pastBlankLines := by
    refine (skipBlankLines_of_le _ (Nat.le_refl _) ?_).symm
    exact List.length_append ▸ Nat.le_add_right ..
  exact hpast ▸ hskip

theorem scan_withTail (htail : EndsLine tail) (hinput : ¬ BlankLines lexer.input) :
    lexer.scan.Unclosed ∨ (lexer.withTail tail).scan = lexer.scan.withTail tail := by
  cases hmode : lexer.mode with
  | raw =>
      unfold scan
      rw [show (lexer.withTail tail).input = lexer.input ++ tail from rfl,
        afterBlankLine?_tail hinput tail, show (lexer.withTail tail).mode = lexer.mode from rfl,
        hmode]
      cases afterBlankLine? lexer.input with
      | none => exact scanLine_withTail htail fun hnil => hinput (hnil ▸ .nil)
      | some rest => exact .inr rfl
  | markup =>
      have hmode' : (lexer.withTail tail).mode = .markup := hmode
      obtain ⟨hpast, hleft⟩ := pastBlankLines_above tail hinput
      rw [scan_markup hmode', scan_markup hmode, hpast]
      exact scanLine_withTail htail fun hnil => hleft (hnil ▸ .nil)

/-- **Above the gap the tail does not matter**: a step that does not come to the end of the text
    is the same whatever stands behind it, unless an attribute list is open there. -/
theorem next_withTail (htail : EndsLine tail)
    (hinput : lexer.pending = [] → ¬ BlankLines lexer.input) :
    lexer.next.Unclosed ∨ (lexer.withTail tail).next = lexer.next.withTail tail := by
  unfold next
  rw [show (lexer.withTail tail).pending = lexer.pending from rfl]
  cases hpending : lexer.pending with
  | nil => exact scan_withTail htail (hinput hpending)
  | cons token pending => exact .inr rfl

theorem pastBlankLines_blank {blank : List Char} (hblank : IsBlankLine blank)
    (hinput : lexer.input = '\n' :: (blank ++ '\n' :: text)) :
    lexer.pastBlankLines
      = { lexer with input := '\n' :: text, line := lexer.line + 1 }.pastBlankLines := by
  have hafter : afterBlankLine? lexer.input = some ('\n' :: text) := by
    rw [hinput, afterBlankLine?_blank hblank]
  exact pastBlankLines_of_some hafter

/-- Blank lines above a line break are passed, and their number does not depend on what stands
    behind it. -/
theorem pastBlankLines_withTail (htext : BlankLines text) :
    ∀ lexer : Lexer, lexer.input = text → ∃ line, ∀ tail,
      (lexer.withTail ('\n' :: tail)).pastBlankLines
        = { lexer with input := '\n' :: tail, line }.pastBlankLines := by
  induction htext with
  | nil =>
      intro lexer hinput
      refine ⟨lexer.line, fun tail => ?_⟩
      rw [withTail, hinput, List.nil_append]
  | @line blank text hblank htext ih =>
      intro lexer hinput
      obtain ⟨line, hpast⟩ := ih { lexer with input := text, line := lexer.line + 1 } rfl
      refine ⟨line, fun tail => ?_⟩
      obtain ⟨more, hmore⟩ : ∃ more, text ++ '\n' :: tail = '\n' :: more := by
        cases htext <;> exact ⟨_, rfl⟩
      have hinput' : (lexer.withTail ('\n' :: tail)).input = '\n' :: (blank ++ '\n' :: more) := by
        rw [← hmore, withTail, hinput, List.cons_append, List.append_assoc]
      rw [pastBlankLines_blank hblank hinput', ← hmore]
      exact hpast tail

/-- **Across the gap**: the step between statements that passes the blank lines above it comes to
    the same line with and without the line that is put in. -/
theorem next_across (gap : Gap) (hmode : lexer.mode = .markup) (hpending : lexer.pending = [])
    (hinput : BlankLines lexer.input) :
    Outcome.Like Token.Like (lexer.withTail gap.rest).next (lexer.withTail gap.wide).next := by
  have hnext : ∀ tail, (lexer.withTail tail).next
      = (lexer.withTail tail).pastBlankLines.scanLine := by
    intro tail
    have hmode' : (lexer.withTail tail).mode = .markup := hmode
    rw [← scan_markup hmode', Lexer.next, show (lexer.withTail tail).pending = [] from hpending]
  obtain ⟨line, hpast⟩ := pastBlankLines_withTail hinput lexer rfl
  have hblank : { lexer with input := gap.wide, line }.pastBlankLines
      = { lexer with input := gap.rest, line := line + 1 }.pastBlankLines :=
    pastBlankLines_blank gap.blank rfl
  have hrest : (lexer.withTail gap.rest).pastBlankLines
      = { lexer with input := gap.rest, line }.pastBlankLines := hpast gap.after
  have hwide : (lexer.withTail gap.wide).pastBlankLines
      = { lexer with input := gap.wide, line }.pastBlankLines := hpast (gap.line ++ gap.rest)
  rw [hnext, hnext, hrest, hwide, hblank]
  exact scanLine_like (Like.skipBlankLines _ ⟨rfl, rfl, rfl, rfl, rfl, rfl, rfl, rfl⟩)

end Lexer

end Stencil
