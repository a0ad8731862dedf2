import Stencil.Proofs.Lexer.RawLines
import Stencil.Proofs.Outline.Heads

/-! # Scanning an outline — from lines to tokens

    The tokens of a list of lines can be told line by line: what stands between
    two lines depends on their depths alone, one `indent`, one `newline` or as
    many `outdent`s as levels are closed (`between`), and then comes the lexeme
    of the line.  `stream` lists them all.

    `reads_stream` shows that the lexer gives exactly these.  The invariant is
    what the lexer knows at the end of a line (`AtLineEnd`): its levels are the
    widths of the depths above the line, and the style it has settled, if any,
    is that of the unit.  One step crosses a line break (`reads_between`), one
    takes the line (`next_head`). -/

namespace Stencil.Outline

variable (unit : IndentUnit) (final : Bool)

/-! ## The tokens of lines -/

/-- The tokens that close levels. -/
def closing (line depth : Nat) : List Token := List.replicate depth (.bare .outdent line)

/-- The tokens between a line at a depth and the next line. -/
def between (line depth next : Nat) : List Token :=
  if next < depth then closing line (depth - next)
  else if depth < next then [⟨line, .indent (next * unit.width)⟩]
  else [.bare .newline line]

/-- The line on which a text ends, from its last line. -/
def lastLine (line : Nat) : Nat := if final then line + 1 else line

/-- The tokens after a line at a depth, when these are the lines that follow. -/
def stream (line depth : Nat) : List Row → List Token
  | [] =>
      (if final then [.bare .newline (line + 1 : Nat)] else [])
        ++ closing (lastLine final line) depth ++ [.bare .eos (lastLine final line)]
  | row :: rows =>
      between unit (line + 1) depth row.depth ++ ⟨(line + 1 : Nat), row.head.lexeme⟩
        :: stream (line + 1) row.depth rows

/-- No line is more than one level deeper than the one before it. -/
def Steady : Nat → List Row → Prop
  | _, [] => True
  | depth, row :: rows => row.depth ≤ depth + 1 ∧ Steady row.depth rows

/-! ## The text of lines -/

/-- The text after a line. -/
def textAfter : List Row → List Char
  | [] => if final then ['\n'] else []
  | row :: rows => '\n' :: (row.print unit ++ textAfter rows)

theorem printRows_cons (row : Row) (rows : List Row) :
    printRows unit final (row :: rows) = row.print unit ++ textAfter unit final rows := by
  induction rows generalizing row with
  | nil => rfl
  | cons next rows ih => rw [printRows, ih, textAfter]; simp

theorem endsLine_textAfter (rows : List Row) : EndsLine (textAfter unit final rows) := by
  intro c hc
  cases rows with
  | nil =>
      cases final with
      | true => exact (Option.some.inj hc).symm
      | false => exact nomatch hc
  | cons row rows => exact (Option.some.inj hc).symm

/-- A character that starts a statement. -/
structure Starts (c : Char) : Prop where
  notSpace : c ≠ ' '
  notTab : c ≠ '\t'
  notNewline : c ≠ '\n'
  notParen : c ≠ '('

theorem print_eq_cons (head : Head) : ∃ c text, head.print = c :: text ∧ Starts c := by
  cases head with
  | tag name =>
      obtain ⟨c, text, htext, hc⟩ := name.exists_cons
      refine ⟨c, text, htext, ?_, ?_, ?_, ?_⟩ <;> rintro rfl <;> exact absurd hc (by decide)
  | code word test =>
      cases word <;> exact ⟨_, _, rfl, by decide, by decide, by decide, by decide⟩
  | _ => exact ⟨_, _, rfl, by decide, by decide, by decide, by decide⟩

/-! ## Levels -/

/-- The widths of the levels that are open at a depth, innermost first. -/
def levels (width : Nat) : Nat → List Nat
  | 0 => []
  | depth + 1 => (depth + 1) * width :: levels width depth

theorem levels_headD (width depth : Nat) : (levels width depth).headD 0 = depth * width := by
  cases depth with
  | zero => exact (Nat.zero_mul width).symm
  | succ depth => rfl

theorem levels_le {width depth next : Nat} (h : next ≤ depth) (hpositive : 0 < width) :
    (levels width depth).dropWhile (next * width < ·) = levels width next
      ∧ ((levels width depth).takeWhile (next * width < ·)).length = depth - next := by
  induction depth with
  | zero =>
      obtain rfl : next = 0 := Nat.le_zero.mp h
      exact ⟨rfl, rfl⟩
  | succ depth ih =>
      by_cases hnext : next = depth + 1
      · subst hnext
        have : ¬ (depth + 1) * width < (depth + 1) * width := Nat.lt_irrefl _
        simp [levels]
      · have hlt : next * width < (depth + 1) * width :=
          Nat.mul_lt_mul_of_pos_right (by omega) hpositive
        obtain ⟨hdrop, htake⟩ := ih (by omega)
        simp only [levels]
        rw [List.dropWhile_cons_of_pos (by simpa using hlt),
          List.takeWhile_cons_of_pos (by simpa using hlt), List.length_cons]
        exact ⟨hdrop, by omega⟩

/-! ## Line breaks -/

variable {unit final} {lexer : Lexer} {c : Char} {text : List Char}

theorem Starts.begins (hc : Starts c) : Begins (c :: text) :=
  ⟨c, text, rfl, by simp [Text.isIndentation, hc.notSpace, hc.notTab], hc.notNewline⟩

theorem styleFor_indented (c : Char) (text : List Char) {lock : Option IndentLock}
    (hlock : ∀ settled, lock = some settled → settled.style = unit.style) (depth : Nat) :
    Lexer.styleFor lock (unit.at depth ++ c :: text) = unit.style
      ∨ depth * unit.width = 0 := by
  cases lock with
  | some settled => exact Or.inl (hlock settled rfl)
  | none =>
      cases hwidth : depth * unit.width with
      | zero => exact Or.inr rfl
      | succ width =>
          refine Or.inl ?_
          rw [Lexer.styleFor, IndentUnit.at, hwidth, List.replicate_succ]
          cases unit.style <;> rfl

/-- An indented line is as wide as its indentation. -/
theorem widthIn_styleFor (hc : Starts c) (text : List Char) {lock : Option IndentLock}
    (hlock : ∀ settled, lock = some settled → settled.style = unit.style) (depth : Nat) :
    Lexer.widthIn (Lexer.styleFor lock (unit.at depth ++ c :: text)) (unit.at depth ++ c :: text)
      = depth * unit.width := by
  rcases styleFor_indented c text hlock depth with hstyle | hwidth
  · rw [hstyle]
    exact hc.begins.widthIn unit.style (depth * unit.width)
  · rw [IndentUnit.at, hwidth]
    exact hc.begins.widthIn _ 0

/-- What a lexer knows apart from its text: it waits for nothing, reads statements, and has the
    levels of a depth open, in the style of the unit if it has settled one. -/
structure Settled (unit : IndentUnit) (lexer : Lexer) (line depth : Nat) : Prop where
  line : lexer.line = line
  levels : lexer.levels = levels unit.width depth
  lock : ∀ settled, lexer.lock = some settled → settled.style = unit.style
  pending : lexer.pending = []
  mode : lexer.mode = .markup

/-- A line that is entered settles the unit's own style, or none. -/
theorem Settled.enterLine {line depth : Nat} (hs : Settled unit lexer line depth) (hc : Starts c)
    (text : List Char) (next : Nat) :
    Settled unit (lexer.enterLine (unit.at next ++ c :: text)) (line + 1) depth := by
  have hwidth := widthIn_styleFor hc text hs.lock next
  refine ⟨congrArg (· + 1) hs.line, hs.levels, fun settled hsettled => ?_, hs.pending, hs.mode⟩
  simp only [Lexer.enterLine, hwidth] at hsettled
  rcases hlock : lexer.lock with - | earlier
  · rw [hlock] at hsettled
    by_cases hzero : next * unit.width = 0
    · rw [if_pos hzero] at hsettled
      cases hsettled
    · -- the first indented line of the text settles the style
      rw [if_neg hzero] at hsettled
      obtain rfl : _ = settled := Option.some.inj hsettled
      rcases styleFor_indented c text hs.lock next with hstyle | hwidth
      · rw [hlock] at hstyle
        exact hstyle
      · exact absurd hwidth hzero
  · rw [hlock] at hsettled
    exact hs.lock settled (hlock.trans hsettled)

/-- A line break leads to the comparison of the next line with the open levels. -/
theorem next_break {line depth next : Nat} (hs : Settled unit lexer line depth)
    (hc : Starts c) (hinput : lexer.input = '\n' :: (unit.at next ++ c :: text)) :
    ∃ entered, lexer.next = entered.placeLine (next * unit.width)
      ∧ entered.input = c :: text ∧ Settled unit entered (line + 1) depth := by
  have hwidth := widthIn_styleFor hc text hs.lock next
  have hdrop : (unit.at next ++ c :: text).drop (next * unit.width) = c :: text := by
    rw [List.drop_left' (by rw [IndentUnit.at, List.length_replicate])]
  have hentered : (lexer.enterLine (unit.at next ++ c :: text)).input = c :: text := by
    show (unit.at next ++ c :: text).drop _ = _
    rw [hwidth, hdrop]
  refine ⟨lexer.enterLine (unit.at next ++ c :: text), ?_, hentered, hs.enterLine hc text next⟩
  rw [Lexer.next_eq_scanLine hs.pending (hinput ▸ hc.begins.afterBlankLine? unit.style _)]
  unfold Lexer.scanLine
  rw [hinput]
  show lexer.readLineBreak _ = _
  have hspace : (c == ' ' || c == '\t') = false := by
    simp [hc.notSpace, hc.notTab]
  have hnewline : (c == '\n') = false := by simp [hc.notNewline]
  simp only [Lexer.readLineBreak, hentered, hwidth, hspace, hnewline]
  rfl

/-- Crossing a line break takes the tokens between the two lines. -/
theorem reads_between {line depth next : Nat} (hs : Settled unit lexer line depth)
    (hc : Starts c) (hinput : lexer.input = '\n' :: (unit.at next ++ c :: text))
    (hsteady : next ≤ depth + 1) :
    ∃ after, Lexer.Reads lexer (between unit (line + 1) depth next) after
      ∧ after.input = c :: text ∧ Settled unit after (line + 1) next := by
  obtain ⟨entered, hnext, hentered, hsettled⟩ := next_break hs hc hinput
  have htoken : ∀ kind, entered.token kind = .bare kind (line + 1 : Nat) := fun kind => by
    rw [Lexer.token, hsettled.line]
  have hhead : entered.levels.headD 0 = depth * unit.width := by
    rw [hsettled.levels, levels_headD]
  unfold Lexer.placeLine at hnext
  simp only [hhead, Nat.mul_lt_mul_right unit.positive] at hnext
  rcases Nat.lt_trichotomy next depth with hlt | rfl | hgt
  · -- the line closes levels: one at once, and the others wait
    obtain ⟨hdrop, htake⟩ := levels_le (Nat.le_of_lt hlt) unit.positive
    have hclosing : closing (line + 1) (depth - next)
        = .bare .outdent (line + 1 : Nat) :: closing (line + 1) (depth - next - 1) := by
      rw [closing, closing, ← List.replicate_succ]
      exact congrArg (List.replicate · _) (by omega)
    rw [if_pos hlt] at hnext
    simp only [Lexer.closeLevels, hsettled.levels, hdrop, htake, hsettled.pending, htoken,
      List.nil_append] at hnext
    rw [between, if_pos hlt, hclosing]
    refine ⟨_, .take hnext (Lexer.reads_pending (List.append_nil _).symm), hentered, ?_⟩
    exact ⟨hsettled.line, rfl, hsettled.lock, rfl, hsettled.mode⟩
  · rw [if_neg (Nat.lt_irrefl _), if_neg (Nat.lt_irrefl _), htoken] at hnext
    rw [between, if_neg (Nat.lt_irrefl _), if_neg (Nat.lt_irrefl _)]
    exact ⟨entered, .take hnext (.done _), hentered, hsettled⟩
  · obtain rfl : next = depth + 1 := by omega
    rw [if_neg (by omega), if_pos (by omega), hsettled.line] at hnext
    rw [between, if_neg (by omega), if_pos (by omega)]
    refine ⟨_, .take hnext (.done _), hentered, rfl, ?_, hsettled.lock,
      hsettled.pending, hsettled.mode⟩
    rw [hsettled.levels]
    rfl

/-- A line is taken as what it says. -/
theorem next_head {line depth : Nat} (hs : Settled unit lexer line depth) (head : Head)
    {rest : List Char} (hrest : EndsLine rest) (hinput : lexer.input = head.print ++ rest) :
    lexer.next = (.ok ⟨line, head.lexeme⟩, { lexer with input := rest }) := by
  obtain ⟨c, text, hprint, hc⟩ := print_eq_cons head
  have hfirst : Form.first? lexer.input = some { lexeme := head.lexeme, rest } :=
    hinput ▸ first?_print hrest head
  have hcons : lexer.input = c :: (text ++ rest) := by rw [hinput, hprint]; rfl
  have hblank : Lexer.afterBlankLine? lexer.input = none := by
    rw [hcons, Lexer.afterBlankLine?]
    rintro after ⟨rfl⟩
    exact hc.notNewline rfl
  have hparen : (c == '(') = false := by simp [hc.notParen]
  rw [Lexer.next_eq_scanLine hs.pending hblank]
  unfold Lexer.scanLine
  rw [hcons, hs.mode]
  split
  · next h => cases h
  · next h => exact absurd (List.cons.inj h).1 hc.notNewline
  · next h =>
      obtain ⟨rfl, rfl⟩ := List.cons.inj h
      simp only [hparen]
      show lexer.readForm = _
      unfold Lexer.readForm
      rw [hfirst]
      simp [Lexer.emit, hs.line, hs.pending, hs.mode]

theorem Settled.withInput {line depth : Nat} (hs : Settled unit lexer line depth)
    (input : List Char) : Settled unit { lexer with input } line depth :=
  ⟨hs.line, hs.levels, hs.lock, hs.pending, hs.mode⟩

/-! ## The end of the text -/

/-- At the end of the text every open level is closed. -/
theorem reads_end (depth : Nat) :
    ∀ {lexer : Lexer} {line : Nat}, Settled unit lexer line depth → lexer.input = [] →
      ∃ last, Lexer.Reads lexer (closing line depth ++ [.bare .eos line]) last := by
  induction depth with
  | zero =>
      intro lexer line hs hinput
      have hnext : lexer.next = (.ok (.bare .eos line), lexer) := by
        rw [Lexer.next_eq_readEnd hs.pending hinput, Lexer.readEnd, hs.levels, levels]
        show (Except.ok (lexer.token .eos), lexer) = _
        rw [Lexer.token, hs.line]
      exact ⟨lexer, .take hnext (.done lexer)⟩
  | succ depth ih =>
      intro lexer line hs hinput
      have hnext : lexer.next
          = (.ok (.bare .outdent line), { lexer with levels := levels unit.width depth }) := by
        rw [Lexer.next_eq_readEnd hs.pending hinput, Lexer.readEnd, hs.levels, levels]
        show (Except.ok (Lexer.token _ .outdent), _) = _
        rw [Lexer.token, hs.line]
      have hclosed : Settled unit { lexer with levels := levels unit.width depth } line depth :=
        ⟨hs.line, rfl, hs.lock, hs.pending, hs.mode⟩
      obtain ⟨last, hreads⟩ := ih hclosed hinput
      exact ⟨last, .take hnext hreads⟩

/-- A line feed at the end of the text is one more line break. -/
theorem next_lastBreak {line depth : Nat} (hs : Settled unit lexer line depth)
    (hinput : lexer.input = ['\n']) :
    ∃ after, lexer.next = (.ok (.bare .newline (line + 1 : Nat)), after)
      ∧ after.input = [] ∧ Settled unit after (line + 1) depth := by
  refine ⟨lexer.enterLine [], ?_, rfl, ?_⟩
  · rw [Lexer.next_eq_scanLine hs.pending (by rw [hinput]; rfl), Lexer.scanLine, hinput]
    show (Except.ok (Lexer.token _ .newline), _) = _
    rw [Lexer.token]
    show (Except.ok (Token.bare .newline (lexer.line + 1 : Nat)), _) = _
    rw [hs.line]
  · refine ⟨congrArg (· + 1) hs.line, hs.levels, ?_, hs.pending, hs.mode⟩
    intro settled hsettled
    refine hs.lock settled ?_
    rw [← hsettled]
    cases hlock : lexer.lock with
    | none => simp [Lexer.enterLine, Lexer.widthIn, hlock]
    | some earlier => simp [Lexer.enterLine, hlock]

/-! ## The whole text -/

/-- What a lexer knows at the end of a line, before the line feed. -/
structure AtLineEnd (unit : IndentUnit) (final : Bool) (lexer : Lexer) (line depth : Nat)
    (rows : List Row) : Prop extends Settled unit lexer line depth where
  input : lexer.input = textAfter unit final rows

/-- **The lexer gives the tokens of the lines**, from the end of any line on. -/
theorem reads_stream (rows : List Row) :
    ∀ {lexer : Lexer} {line depth : Nat}, AtLineEnd unit final lexer line depth rows →
      Steady depth rows →
      ∃ last, Lexer.Reads lexer (stream unit final line depth rows) last := by
  induction rows with
  | nil =>
      intro lexer line depth h _
      cases final with
      | false => exact reads_end depth h.toSettled h.input
      | true =>
          obtain ⟨after, hnext, hinput, hs⟩ := next_lastBreak h.toSettled h.input
          obtain ⟨last, hreads⟩ := reads_end depth hs hinput
          exact ⟨last, .take hnext hreads⟩
  | cons row rows ih =>
      intro lexer line depth h hsteady
      obtain ⟨c, text, hprint, hc⟩ := print_eq_cons row.head
      have hinput : lexer.input = '\n' :: (unit.at row.depth
          ++ c :: (text ++ textAfter unit final rows)) := by
        rw [h.input, textAfter, Row.print, hprint, List.append_assoc]
        rfl
      obtain ⟨start, hbetween, hstart, hs⟩ := reads_between h.toSettled hc hinput hsteady.1
      have hline := next_head hs row.head (endsLine_textAfter unit final rows) (by
        rw [hstart, hprint]
        rfl)
      obtain ⟨last, hreads⟩ := ih ⟨hs.withInput _, rfl⟩ hsteady.2
      exact ⟨last, hbetween.append (.take hline hreads)⟩

end Stencil.Outline
