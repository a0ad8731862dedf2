import Stencil.Proofs.Lexer.Ahead
import Stencil.Proofs.Lexer.Depth
import Stencil.Proofs.Text.Lines

/-! # Raw lines — how much of a text a raw body takes

    In raw mode a line is one token, whatever stands on it, and the indentation
    of the lines goes on opening and closing levels.  `Enters` lists what the
    start of a line can do, in either mode; `RawStep` lists the steps in raw mode.

    The tokens of a raw body are those up to the one that leads out of it
    (`Closes`).  They take whole lines: all that are blank or no narrower than
    the body, and none more (`Takes`).  The line that ends the body, if there is
    one, is narrower; nothing of it is taken but its indentation. -/

namespace Stencil

open Lexer

/-- A line begins here, with something on it. -/
def Begins (text : List Char) : Prop :=
  ∃ c rest, text = c :: rest ∧ Text.isIndentation c = false ∧ c ≠ '\n'

theorem Begins.stops {text : List Char} (h : Begins text) : Stops Text.isIndentation text := by
  obtain ⟨c, rest, rfl, hc, -⟩ := h
  rintro _ ⟨rfl⟩
  exact hc

theorem Begins.not_endsLine {text : List Char} (h : Begins text) : ¬ EndsLine text := by
  obtain ⟨c, rest, rfl, -, hnewline⟩ := h
  exact fun hends => hnewline (hends c rfl)

theorem Begins.append {text : List Char} (h : Begins text) (more : List Char) :
    Begins (text ++ more) := by
  obtain ⟨c, rest, rfl, hc⟩ := h
  exact ⟨c, rest ++ more, rfl, hc⟩

theorem IndentStyle.isIndentation_char (style : IndentStyle) :
    Text.isIndentation style.char = true := by
  cases style <;> rfl

/-- Before something that begins a line, the line is as wide as its indentation. -/
theorem Begins.widthIn {text : List Char} (h : Begins text) (style : IndentStyle) (width : Nat) :
    widthIn style (List.replicate width style.char ++ text) = width := by
  have hstops : Stops (· == style.char) text := by
    intro c hc
    have hblank := h.stops c hc
    rw [beq_eq_false_iff_ne]
    rintro rfl
    exact nomatch hblank.symm.trans style.isIndentation_char
  rw [Lexer.widthIn, takeWhile_line (fun c hc => by simp [List.eq_of_mem_replicate hc]) hstops,
    List.length_replicate]

/-- A line that something begins on is not blank. -/
theorem Begins.afterBlankLine? {text : List Char} (h : Begins text) (style : IndentStyle)
    (width : Nat) :
    afterBlankLine? ('\n' :: (List.replicate width style.char ++ text)) = none := by
  obtain ⟨c, rest, rfl, hc, hnewline⟩ := h
  have hstart : (Text.dropSpaces (c :: rest)).head? ≠ some '\n' := by
    have hspace : (c == ' ') = false := by
      rw [Text.isIndentation, Bool.or_eq_false_iff] at hc
      exact hc.1
    rw [Text.dropSpaces, List.dropWhile_cons_of_neg (by simp [hspace])]
    exact fun h => hnewline (Option.some.inj h)
  have hhead : (Text.dropSpaces (List.replicate width style.char ++ c :: rest)).head?
      ≠ some '\n' := by
    cases style with
    | spaces =>
        rw [Text.dropSpaces, List.dropWhile_append_of_pos
          (fun d hd => by rw [List.eq_of_mem_replicate hd]; rfl)]
        exact hstart
    | tabs =>
        cases width with
        | zero => exact hstart
        | succ width => exact fun h => absurd (Option.some.inj h) (by decide)
  rw [Lexer.afterBlankLine?]
  exact if_neg (by simpa using hhead)

namespace Lexer

variable {lexer after last : Lexer} {token : Token} {tokens : List Token} {text : List Char}
  {style : IndentStyle} {width depth : Nat}

/-! ## The start of a line -/

/-- What the start of a line does to the open levels: the levels before it, the width of the line,
    the text behind its indentation, the token, the levels after it, and the tokens that follow. -/
inductive Enters (levels : List Nat) (width : Nat) (text : List Char) :
    Token → List Nat → List Token → Prop where
  /-- A line with nothing on it has no width that counts. -/
  | blank {token : Token} (ends : EndsLine text) (kind : token.kind = .newline) :
      Enters levels width text token levels []
  | sibling {token : Token} (begins : Begins text) (same : levels.headD 0 = width)
      (kind : token.kind = .newline) : Enters levels width text token levels []
  | deeper {token : Token} (begins : Begins text) (wider : levels.headD 0 < width)
      (lexeme : token.lexeme = .indent width) :
      Enters levels width text token (width :: levels) []
  /-- One outdent for each level that is wider. -/
  | shallower {token : Token} (begins : Begins text) (narrower : width < levels.headD 0)
      (kind : token.kind = .outdent) :
      Enters levels width text token (levels.dropWhile (width < ·))
        (List.replicate ((levels.takeWhile (width < ·)).length - 1) token)

theorem replicate_append_drop_widthIn (style : IndentStyle) (text : List Char) :
    List.replicate (widthIn style text) style.char ++ text.drop (widthIn style text) = text := by
  have hrun : text.takeWhile (· == style.char) = List.replicate (widthIn style text) style.char :=
    List.eq_replicate_iff.mpr ⟨rfl, fun c hc => by simpa using List.mem_takeWhile_imp hc⟩
  have hsplit : text.takeWhile (· == style.char) ++ text.dropWhile (· == style.char) = text :=
    List.takeWhile_append_dropWhile
  have hdrop : (text.takeWhile (· == style.char) ++ text.dropWhile (· == style.char)).drop
      (widthIn style text) = text.dropWhile (· == style.char) := List.drop_left
  rw [hsplit] at hdrop
  rw [hdrop, ← hrun, hsplit]

/-- A line break enters the next line, and the indentation of that one says what comes of it. -/
structure LineBreak (lexer : Lexer) (text : List Char) (token : Token) (after : Lexer) : Prop where
  enters : ∃ followers, Enters lexer.levels (widthIn (styleFor lexer.lock text) text) after.input
      token after.levels followers ∧ after.pending = lexer.pending ++ followers
  indentation : List.replicate (widthIn (styleFor lexer.lock text) text)
      (styleFor lexer.lock text).char ++ after.input = text
  mode : after.mode = lexer.mode
  lock : after.lock = (lexer.enterLine text).lock

theorem placeLine_enters (hbegins : Begins lexer.input)
    (h : lexer.placeLine width = (.ok token, after)) :
    (∃ followers, Enters lexer.levels width after.input token after.levels followers
        ∧ after.pending = lexer.pending ++ followers)
      ∧ after.input = lexer.input ∧ after.mode = lexer.mode ∧ after.lock = lexer.lock := by
  unfold placeLine at h
  simp only at h
  split at h
  · next hnarrow =>
      cases h
      exact ⟨⟨_, .shallower hbegins hnarrow rfl, rfl⟩, rfl, rfl, rfl⟩
  · next hnarrow =>
      split at h
      · next hwide =>
          cases h
          exact ⟨⟨_, .deeper hbegins hwide rfl, (List.append_nil _).symm⟩, rfl, rfl, rfl⟩
      · next hwide =>
          cases h
          have hsame : lexer.levels.headD 0 = width := by omega
          exact ⟨⟨_, .sibling hbegins hsame rfl, (List.append_nil _).symm⟩, rfl, rfl, rfl⟩

theorem readLineBreak_lineBreak (h : lexer.readLineBreak text = (.ok token, after)) :
    lexer.LineBreak text token after := by
  have htext := replicate_append_drop_widthIn (styleFor lexer.lock text) text
  have hblank : EndsLine (lexer.enterLine text).input →
      (lexer.enterLine text).emit ((lexer.enterLine text).token .newline) = (.ok token, after) →
      lexer.LineBreak text token after := by
    intro hends hemit
    cases hemit
    exact ⟨⟨[], .blank hends rfl, (List.append_nil _).symm⟩, htext, rfl, rfl⟩
  unfold readLineBreak at h
  simp only at h
  split at h
  · next hend => exact hblank (by rw [hend]; exact nofun) h
  · next c rest hinput =>
      split at h
      · cases h
      · next hindentation =>
          split at h
          · next hnewline =>
              refine hblank ?_ h
              rw [hinput]
              rintro _ ⟨rfl⟩
              exact beq_iff_eq.mp hnewline
          · next hnewline =>
              have hbegins : Begins (lexer.enterLine text).input :=
                ⟨c, rest, hinput, by simpa [Text.isIndentation] using hindentation,
                  by simpa using hnewline⟩
              obtain ⟨henters, hsame, hmode, hlock⟩ := placeLine_enters hbegins h
              refine ⟨henters, ?_, hmode, hlock⟩
              rw [hsame]
              exact htext

/-! ## Steps in raw mode -/

/-- A step in raw mode when no token is pending. -/
inductive RawStep (lexer : Lexer) : Token → Lexer → Prop where
  /-- A line is taken as it stands. -/
  | line (line rest : List Char) (input : lexer.input = line ++ rest) (nonempty : line ≠ [])
      (within : '\n' ∉ line) (ends : EndsLine rest) :
      RawStep lexer (lexer.token .text (String.ofList line)) { lexer with input := rest }
  /-- A line of spaces is an empty text. -/
  | spaces (count : Nat) (rest : List Char)
      (input : lexer.input = '\n' :: (List.replicate count ' ' ++ '\n' :: rest)) :
      RawStep lexer (.bare .text (lexer.line + 1 : Nat))
        { lexer with input := '\n' :: rest, line := lexer.line + 1 }
  | lineBreak {token : Token} {after : Lexer} (text : List Char)
      (input : lexer.input = '\n' :: text) (entered : lexer.LineBreak text token after) :
      RawStep lexer token after
  /-- At the end of the text the innermost level is closed. -/
  | close (innermost : Nat) (levels : List Nat) (input : lexer.input = [])
      (opened : lexer.levels = innermost :: levels) :
      RawStep lexer (lexer.token .outdent) { lexer with levels }
  | ended (levels : lexer.levels = []) : RawStep lexer (lexer.token .eos) lexer

/-- A blank line is a line of spaces, with the line feed behind it. -/
theorem afterBlankLine?_spaces {rest : List Char} (h : afterBlankLine? text = some rest) :
    ∃ count more, rest = '\n' :: more ∧ text = '\n' :: (List.replicate count ' ' ++ rest) := by
  obtain ⟨more, hrest⟩ := afterBlankLine?_break h
  unfold afterBlankLine? at h
  split at h
  · next line =>
      simp only [Option.ite_none_right_eq_some, Option.some.injEq] at h
      have hrun : line.takeWhile (· == ' ')
          = List.replicate (line.takeWhile (· == ' ')).length ' ' :=
        List.eq_replicate_iff.mpr ⟨rfl, fun c hc => by simpa using List.mem_takeWhile_imp hc⟩
      refine ⟨(line.takeWhile (· == ' ')).length, more, hrest, ?_⟩
      rw [← hrun, ← h.2, Text.dropSpaces, List.takeWhile_append_dropWhile]
  · cases h

theorem scanLine_raw (hmode : lexer.mode = .raw) (h : lexer.scanLine = (.ok token, after)) :
    RawStep lexer token after := by
  unfold scanLine at h
  split at h
  · next hinput =>
      unfold readEnd at h
      split at h
      · next hlevels =>
          cases h
          exact .ended hlevels
      · next innermost levels hlevels =>
          cases h
          exact .close innermost levels hinput hlevels
  · next text hinput => exact .lineBreak text hinput (readLineBreak_lineBreak h)
  · next c text hc hinput =>
      rw [hmode] at h
      have hsplit : (lexer.input.takeWhile (· != '\n')) ++ lexer.input.dropWhile (· != '\n')
          = lexer.input := List.takeWhile_append_dropWhile
      cases h
      refine .line _ _ hsplit.symm ?_ (fun hmem => ?_) fun d hd => ?_
      · rw [hinput, List.takeWhile_cons_of_pos (by simpa using hc)]
        exact List.cons_ne_nil _ _
      · simpa using List.mem_takeWhile_imp hmem
      · simpa using stops_dropWhile (· != '\n') lexer.input d hd

/-- **Everything a step does in raw mode** when no token is pending. -/
theorem next_raw (hmode : lexer.mode = .raw) (hpending : lexer.pending = [])
    (h : lexer.next = (.ok token, after)) : RawStep lexer token after := by
  unfold next at h
  rw [hpending] at h
  simp only [scan] at h
  split at h
  · exact scanLine_raw hmode h
  · next rest hblank =>
      obtain ⟨count, more, rfl, hinput⟩ := afterBlankLine?_spaces hblank
      split at h
      · cases h
        exact .spaces count more hinput
      · next hmarkup => cases hmode.symm.trans hmarkup

/-! ## The tokens of a raw body -/

/-- Tokens that lead out of a number of blocks, the last one of them out of the outermost. -/
inductive Closes : Nat → List Token → Prop where
  | done : Closes 0 []
  | step {depth depth' : Nat} {token : Token} {tokens : List Token}
      (moves : token.kind.Moves (depth + 1) depth') (rest : Closes depth' tokens) :
      Closes (depth + 1) (token :: tokens)

/-- The line that a token of a raw body is.  Line breaks, indents and outdents are none. -/
def lineOf? (token : Token) : Option (List Char) :=
  match token.kind with
  | .outdent | .newline | .indent => none
  | _ => some token.value.toList

/-- The lines of a raw body, from its tokens. -/
def linesOf (tokens : List Token) : List (List Char) := tokens.filterMap lineOf?

theorem linesOf_cons_none (h : lineOf? token = none) : linesOf (token :: tokens) = linesOf tokens :=
  List.filterMap_cons_none h

theorem linesOf_cons_some {line : List Char} (h : lineOf? token = some line) :
    linesOf (token :: tokens) = line :: linesOf tokens :=
  List.filterMap_cons_some h

theorem lineOf?_outdent (h : token.kind = .outdent) : lineOf? token = none := by
  rw [lineOf?, h]

theorem lineOf?_newline (h : token.kind = .newline) : lineOf? token = none := by
  rw [lineOf?, h]

theorem lineOf?_indent (h : token.kind = .indent) : lineOf? token = none := by
  rw [lineOf?, h]

/-- Where the first token leads. -/
theorem Closes.tail (h : Closes depth (token :: tokens)) :
    ∃ depth', Closes depth' tokens
      ∧ depth' + (if token.kind = .outdent then 1 else 0)
        = depth + if token.kind = .indent then 1 else 0 := by
  cases h with
  | step moves rest => exact ⟨_, rest, moves.count⟩

/-- When as many outdents are pending as lead out, these are the tokens. -/
theorem Reads.leave (h : Reads lexer tokens last) :
    ∀ {depth : Nat}, Closes depth tokens → (∀ t ∈ lexer.pending, t.kind = .outdent) →
      depth ≤ lexer.pending.length →
        last = { lexer with pending := lexer.pending.drop depth } ∧ linesOf tokens = [] := by
  induction h with
  | done lexer =>
      rintro depth ⟨⟩ - -
      exact ⟨rfl, rfl⟩
  | @take lexer after last token tokens hnext _ ih =>
      rintro depth (- | ⟨hmoves, hrest⟩) houtdents hle
      rcases hpending : lexer.pending with - | ⟨first, pending⟩
      · rw [hpending] at hle
        exact absurd hle (Nat.not_succ_le_zero _)
      · rw [next, hpending] at hnext
        cases hnext
        rw [hpending] at houtdents hle
        obtain ⟨hkind, houtdents⟩ := List.forall_mem_cons.mp houtdents
        have hcount := hmoves.count
        rw [hkind] at hcount
        obtain rfl : _ = _ := by simpa using hcount
        obtain ⟨rfl, hlines⟩ := ih hrest houtdents (Nat.le_of_succ_le_succ hle)
        exact ⟨rfl, (linesOf_cons_none (lineOf?_outdent hkind)).trans hlines⟩

/-! ## The lines of a raw body -/

/-- What a raw body of a width takes of the text behind its indent: the first line, the others, each
    behind a line feed, and no more.  `left` is the text that is left. -/
structure Takes (style : IndentStyle) (width : Nat) (text first : List Char)
    (others : List (List Char)) (left : List Char) : Prop where
  /-- The lines end where the text ends, or before a line that is narrower than the body. -/
  text : ∃ rest, text = first ++ others.flatMap ('\n' :: ·) ++ rest
    ∧ (rest = [] ∧ left = [] ∨ ∃ narrower, narrower < width ∧ Begins left
      ∧ rest = '\n' :: (List.replicate narrower style.char ++ left))
  oneLine : ∀ line ∈ first :: others, '\n' ∉ line
  /-- The first line stands behind its indentation. -/
  first : Text.content first = first
  /-- All lines are blank or indented as far as the body. -/
  inside : ∀ line ∈ others, Text.content line = []
    ∨ ∃ wider, width ≤ wider ∧ line = List.replicate wider style.char ++ Text.content line

/-- The lines that a raw body takes say what these lines say. -/
def Captures (style : IndentStyle) (width : Nat) (text : List Char) (lines : List (List Char))
    (left : List Char) : Prop :=
  ∃ first others, Takes style width text first others left
    ∧ Text.contents lines = Text.contents (first :: others)

section Captures

variable {line left indentation : List Char} {lines : List (List Char)}

/-- At the end of the text a body takes no more. -/
theorem captures_end : Captures style width [] [] [] := by
  refine ⟨[], [], ⟨⟨[], rfl, .inl ⟨rfl, rfl⟩⟩, ?_, rfl, nofun⟩, rfl⟩
  simp

/-- Before a line that is narrower a body takes no more. -/
theorem captures_narrower {narrower : Nat} (hnarrower : narrower < width) (hleft : Begins left) :
    Captures style width ('\n' :: (List.replicate narrower style.char ++ left)) [] left := by
  refine ⟨[], [], ⟨⟨_, rfl, .inr ⟨narrower, hnarrower, hleft, rfl⟩⟩, ?_, rfl, nofun⟩, rfl⟩
  simp

/-- The first line is the rest of the current one. -/
theorem Captures.firstLine (h : Captures style width text lines left) (hends : EndsLine text)
    (hline : '\n' ∉ line) (hfirst : Text.content line = line) :
    Captures style width (line ++ text) (line :: lines) left := by
  obtain ⟨first, others, ⟨⟨rest, rfl, hrest⟩, hone, -, hinside⟩, hlines⟩ := h
  obtain ⟨hone', hothers⟩ := List.forall_mem_cons.mp hone
  rw [List.append_assoc] at hends
  obtain rfl := eq_nil_of_endsLine hone' hends
  refine ⟨line, others, ⟨⟨rest, ?_, hrest⟩, ?_, hfirst, hinside⟩, ?_⟩
  · rw [List.nil_append, List.append_assoc]
  · exact List.forall_mem_cons.mpr ⟨hline, hothers⟩
  · have hnothing : Text.contents ([] :: others) = Text.contents others :=
      Text.contents_cons_of_blank rfl others
    rw [Text.contents_cons, hlines, hnothing, ← Text.contents_cons]

/-- Another line stands behind its indentation; it is blank or indented as far as the body. -/
theorem Captures.nextLine (h : Captures style width text lines left)
    (hindentation : ∀ c ∈ indentation, Text.isIndentation c = true)
    (hinside : EndsLine text
      ∨ ∃ wider, width ≤ wider ∧ indentation = List.replicate wider style.char) :
    Captures style width ('\n' :: (indentation ++ text)) lines left := by
  obtain ⟨first, others, ⟨⟨rest, rfl, hrest⟩, hone, hfirst, hothers⟩, hlines⟩ := h
  have hcontent : Text.content (indentation ++ first) = first := by
    rw [Text.content_append hindentation, hfirst]
  have hnewline : '\n' ∉ indentation := fun hmem => nomatch hindentation _ hmem
  obtain ⟨hone', -⟩ := List.forall_mem_cons.mp hone
  refine ⟨[], (indentation ++ first) :: others, ⟨⟨rest, ?_, hrest⟩, ?_, rfl, ?_⟩, ?_⟩
  · simp
  · refine List.forall_mem_cons.mpr ⟨List.not_mem_nil, ?_⟩
    refine List.forall_mem_cons.mpr ⟨?_, (List.forall_mem_cons.mp hone).2⟩
    exact fun hmem => (List.mem_append.mp hmem).elim hnewline hone'
  · refine List.forall_mem_cons.mpr ⟨?_, hothers⟩
    rcases hinside with hends | ⟨wider, hwider, rfl⟩
    · rw [List.append_assoc] at hends
      exact .inl (hcontent.trans (eq_nil_of_endsLine hone' hends))
    · exact .inr ⟨wider, hwider, by rw [hcontent]⟩
  · rw [hlines, Text.contents_cons_congr (hfirst.trans hcontent.symm) others]
    exact (Text.contents_cons_of_blank rfl _).symm

/-- An empty text says nothing. -/
theorem Captures.blankLine (h : Captures style width text lines left) :
    Captures style width text ([] :: lines) left := by
  obtain ⟨first, others, htakes, hlines⟩ := h
  exact ⟨first, others, htakes, (Text.contents_cons_of_blank rfl lines).trans hlines⟩

end Captures

/-! ## A whole body -/

/-- A lexer inside a raw body of a width, with the number of bodies that are open, its own included;
    those inside it are no narrower. -/
structure InRaw (style : IndentStyle) (width depth : Nat) (lexer : Lexer) : Prop where
  mode : lexer.mode = .raw
  lock : ∃ line, lexer.lock = some ⟨style, line⟩
  front : Stops Text.isIndentation lexer.input
  pending : ∀ t ∈ lexer.pending, t.kind = .outdent
  levels : ∃ inner outer, lexer.levels = inner ++ width :: outer
    ∧ inner.length + 1 + lexer.pending.length = depth ∧ ∀ level ∈ inner, width ≤ level

/-- The indentation character of a style, some times. -/
theorem isIndentation_of_mem {count : Nat} {c : Char} (h : c ∈ List.replicate count style.char) :
    Text.isIndentation c = true :=
  List.eq_of_mem_replicate h ▸ style.isIndentation_char

section Levels

variable {levels levels' inner outer : List Nat} {followers : List Token} {p : Nat → Bool}

/-- Levels are closed up to one that is not. -/
theorem takeWhile_levels (hwidth : p width = false) :
    (inner ++ width :: outer).takeWhile p = inner.takeWhile p := by
  induction inner with
  | nil => exact List.takeWhile_cons_of_neg (by simp [hwidth])
  | cons level inner ih => simp only [List.cons_append, List.takeWhile_cons, ih]

theorem dropWhile_levels (hwidth : p width = false) :
    (inner ++ width :: outer).dropWhile p = inner.dropWhile p ++ width :: outer := by
  induction inner with
  | nil => exact List.dropWhile_cons_of_neg (by simp [hwidth])
  | cons level inner ih =>
      simp only [List.cons_append, List.dropWhile_cons, ih]
      split <;> rfl

theorem Enters.follower {found : Nat} (h : Enters levels found text token levels' followers) :
    ∀ t ∈ followers, t.kind = .outdent := by
  cases h with
  | shallower _ _ hkind => exact fun t ht => List.eq_of_mem_replicate ht ▸ hkind
  | _ => exact nofun

/-- The start of a line is no line. -/
theorem Enters.lineOf? {found : Nat} (h : Enters levels found text token levels' followers) :
    lineOf? token = none := by
  cases h with
  | blank _ hkind => exact lineOf?_newline hkind
  | sibling _ _ hkind => exact lineOf?_newline hkind
  | deeper _ _ hlexeme => exact lineOf?_indent (congrArg Lexeme.kind hlexeme)
  | shallower _ _ hkind => exact lineOf?_outdent hkind

/-- What the start of a line does inside a body: it stays inside, with the line no narrower than the
    body unless it is blank; or the line is narrower, and all bodies are left. -/
inductive Stays (width found : Nat) (text : List Char) (inner outer : List Nat) (token : Token)
    (levels' : List Nat) (followers : List Token) : Prop where
  | inside (inner' : List Nat) (levels : levels' = inner' ++ width :: outer)
      (wider : ∀ level ∈ inner', width ≤ level)
      (count : inner'.length + followers.length + (if token.kind = .outdent then 1 else 0)
        = inner.length + if token.kind = .indent then 1 else 0)
      (front : Stops Text.isIndentation text) (line : EndsLine text ∨ width ≤ found)
  | leaves (narrower : found < width) (begins : Begins text) (kind : token.kind = .outdent)
      (count : inner.length ≤ followers.length)

theorem Enters.stays {found : Nat} (h : Enters levels found text token levels' followers)
    (hlevels : levels = inner ++ width :: outer) (hinner : ∀ level ∈ inner, width ≤ level) :
    Stays width found text inner outer token levels' followers := by
  have hhead : width ≤ levels.headD 0 := by
    rw [hlevels]
    cases inner with
    | nil => exact Nat.le_refl _
    | cons level inner => exact hinner level List.mem_cons_self
  cases h with
  | blank hends hkind =>
      refine .inside inner hlevels hinner ?_ (hends.stops rfl) (.inl hends)
      simp [hkind]
  | sibling hbegins hsame hkind =>
      refine .inside inner hlevels hinner ?_ hbegins.stops (.inr (hsame ▸ hhead))
      simp [hkind]
  | deeper hbegins hwider hlexeme =>
      have hkind : token.kind = .indent := congrArg Lexeme.kind hlexeme
      have hwidth : width ≤ found := Nat.le_of_lt (Nat.lt_of_le_of_lt hhead hwider)
      refine .inside (found :: inner) (congrArg (found :: ·) hlevels)
        (List.forall_mem_cons.mpr ⟨hwidth, hinner⟩) ?_ hbegins.stops (.inr hwidth)
      simp [hkind]
  | shallower hbegins hnarrower hkind =>
      by_cases hwidth : width ≤ found
      · -- the level of the body stays open
        have hopen : (decide (found < width)) = false := by simpa using hwidth
        have hclosed : inner.takeWhile (found < ·) ≠ [] := by
          intro hnone
          rw [hlevels] at hnarrower
          rcases inner with - | ⟨level, inner⟩
          · exact absurd hnarrower (Nat.not_lt.mpr hwidth)
          · rw [List.takeWhile_cons_of_pos (by simpa using hnarrower)] at hnone
            exact nomatch hnone
        have hlength := congrArg List.length
          (List.takeWhile_append_dropWhile (p := (found < ·)) (l := inner))
        rw [List.length_append] at hlength
        have hpositive := List.length_pos_iff.mpr hclosed
        refine .inside (inner.dropWhile (found < ·)) ?_ ?_ ?_ hbegins.stops (.inr hwidth)
        · rw [hlevels, dropWhile_levels hopen]
        · exact fun level hlevel => hinner level (List.dropWhile_suffix _ |>.subset hlevel)
        · rw [hlevels, takeWhile_levels hopen, List.length_replicate, hkind]
          simp only [if_true, reduceCtorEq, if_false]
          omega
      · -- all levels of the body are wider than the line
        have hall : ∀ level ∈ inner, decide (found < level) = true := by
          intro level hlevel
          have := hinner level hlevel
          simp only [decide_eq_true_eq]
          omega
        refine .leaves (Nat.lt_of_not_le hwidth) hbegins hkind ?_
        rw [hlevels, List.takeWhile_append_of_pos hall,
          List.takeWhile_cons_of_pos (by simpa using hwidth), List.length_replicate,
          List.length_append, List.length_cons]
        omega

end Levels

/-- What a line break does inside a raw body. -/
structure InRaw.AfterBreak (style : IndentStyle) (width depth : Nat) (text : List Char)
    (after : Lexer) (found : Nat) : Prop where
  indentation : text = List.replicate found style.char ++ after.input
  pending : ∀ t ∈ after.pending, t.kind = .outdent
  goesOn : InRaw style width depth after ∧ (EndsLine after.input ∨ width ≤ found)
    ∨ found < width ∧ Begins after.input ∧ depth ≤ after.pending.length

/-- **A line break** leads to a line inside the body, or out of it. -/
theorem InRaw.lineBreak (h : InRaw style width depth lexer) (hpending : lexer.pending = [])
    (hbreak : lexer.LineBreak text token after) {depth' : Nat}
    (hcount : depth' + (if token.kind = .outdent then 1 else 0)
      = depth + if token.kind = .indent then 1 else 0) :
    lineOf? token = none ∧ ∃ found, InRaw.AfterBreak style width depth' text after found := by
  obtain ⟨⟨followers, henters, hfollowers⟩, hindentation, hmode, hlock⟩ := hbreak
  obtain ⟨line, hsettled⟩ := h.lock
  obtain ⟨inner, outer, hlevels, hdepth, hinner⟩ := h.levels
  rw [hpending, List.nil_append] at hfollowers
  rw [hpending, List.length_nil] at hdepth
  have hstyle : styleFor lexer.lock text = style := by rw [hsettled]; rfl
  have hlocked : after.lock = some ⟨style, line⟩ := by
    rw [hlock]
    simp only [enterLine, hsettled]
    rfl
  rw [hstyle] at henters hindentation
  refine ⟨henters.lineOf?, widthIn style text, hindentation.symm,
    hfollowers ▸ henters.follower, ?_⟩
  cases henters.stays hlevels hinner with
  | inside inner' hlevels' hwider hcounts hfront hline =>
      refine .inl ⟨⟨hmode.trans h.mode, ⟨line, hlocked⟩, hfront, hfollowers ▸ henters.follower,
        inner', outer, hlevels', ?_, hwider⟩, hline⟩
      rw [hfollowers]
      omega
  | leaves hnarrower hbegins hkind hcounts =>
      refine .inr ⟨hnarrower, hbegins, ?_⟩
      rw [hkind] at hcount
      simp only [if_true, reduceCtorEq, if_false] at hcount
      rw [hfollowers]
      omega

/-- A step that takes text alone stays inside the body. -/
theorem InRaw.withInput (h : InRaw style width depth lexer) {input : List Char} (line : Nat)
    (hfront : Stops Text.isIndentation input) :
    InRaw style width depth { lexer with input, line } :=
  ⟨h.mode, h.lock, hfront, h.pending, h.levels⟩

/-- An outdent that was pending is out of one body; the body itself is still open. -/
theorem InRaw.takePending (h : InRaw style width depth lexer) {pending : List Token}
    (hpending : lexer.pending = token :: pending) :
    token.kind = .outdent ∧ InRaw style width (depth - 1) { lexer with pending } := by
  obtain ⟨inner, outer, hlevels, hdepth, hinner⟩ := h.levels
  have houtdents := h.pending
  rw [hpending] at houtdents hdepth
  obtain ⟨hkind, houtdents⟩ := List.forall_mem_cons.mp houtdents
  rw [List.length_cons] at hdepth
  exact ⟨hkind, h.mode, h.lock, h.front, houtdents, inner, outer, hlevels, by simp only; omega,
    hinner⟩

/-- At the end of the text the innermost body is closed; that may be the body itself. -/
theorem InRaw.closeLevel (h : InRaw style width depth lexer) (hpending : lexer.pending = [])
    {innermost : Nat} {levels : List Nat} (hopen : lexer.levels = innermost :: levels) :
    depth = 1 ∨ InRaw style width (depth - 1) { lexer with levels } := by
  obtain ⟨inner, outer, hlevels, hdepth, hinner⟩ := h.levels
  rw [hpending, List.length_nil] at hdepth
  rcases inner with - | ⟨level, inner⟩
  · exact .inl hdepth.symm
  · rw [hlevels, List.cons_append] at hopen
    obtain ⟨-, rfl⟩ := List.cons.inj hopen
    rw [List.length_cons] at hdepth
    refine .inr ⟨h.mode, h.lock, h.front, h.pending, inner, outer, rfl, ?_,
      fun level hlevel => hinner level (List.mem_cons_of_mem _ hlevel)⟩
    simp only [hpending, List.length_nil]
    omega

/-- **The tokens of a raw body are its lines**, and the body ends before the first line that is
    narrower. -/
theorem Reads.captures (h : Reads lexer tokens last) :
    ∀ {depth : Nat}, Closes depth tokens → InRaw style width depth lexer →
      (∀ t ∈ last.pending, t.kind = .outdent)
        ∧ Captures style width lexer.input (linesOf tokens) last.input := by
  induction h with
  | done lexer =>
      -- the body is still open
      rintro depth ⟨⟩ hraw
      obtain ⟨inner, outer, -, hdepth, -⟩ := hraw.levels
      omega
  | @take lexer after last token tokens hnext hreads ih =>
      intro depth hcloses hraw
      obtain ⟨depth', hrest, hcount⟩ := hcloses.tail
      rcases hpending : lexer.pending with - | ⟨first, pending⟩
      · cases next_raw hraw.mode hpending hnext with
        | line line rest hinput hne hwithin hends =>
            obtain rfl : depth' = depth := hcount
            obtain ⟨houtdents, hcaptures⟩ :=
              ih hrest (hraw.withInput lexer.line (hends.stops rfl))
            have hline : Stops Text.isIndentation line := by
              have hfront := hraw.front
              rw [hinput] at hfront
              rcases line with - | ⟨c, line⟩
              · exact absurd rfl hne
              · exact hfront
            have hsome : lineOf? (lexer.token .text (String.ofList line)) = some line :=
              congrArg some String.toList_ofList
            rw [hinput, linesOf_cons_some hsome]
            exact ⟨houtdents, hcaptures.firstLine hends hwithin (Text.content_of_stops hline)⟩
        | spaces count rest hinput =>
            obtain rfl : depth' = depth := hcount
            have hends : EndsLine ('\n' :: rest) := by
              rintro _ ⟨rfl⟩
              rfl
            obtain ⟨houtdents, hcaptures⟩ :=
              ih hrest (hraw.withInput (lexer.line + 1) (hends.stops rfl))
            have hsome : lineOf? (.bare .text (lexer.line + 1 : Nat)) = some [] := rfl
            rw [hinput, linesOf_cons_some hsome]
            exact ⟨houtdents, (hcaptures.nextLine (fun c => Text.isIndentation_of_mem_spaces)
              (.inl hends)).blankLine⟩
        | lineBreak text hinput hbreak =>
            obtain ⟨hnone, found, hindentation, houtdents, hgoesOn⟩ :=
              hraw.lineBreak hpending hbreak hcount
            rw [hinput, hindentation, linesOf_cons_none hnone]
            rcases hgoesOn with ⟨hafter, hline⟩ | ⟨hnarrower, hbegins, hle⟩
            · obtain ⟨hlast, hcaptures⟩ := ih hrest hafter
              exact ⟨hlast, hcaptures.nextLine (fun c => isIndentation_of_mem)
                (hline.imp_right fun hwidth => ⟨found, hwidth, rfl⟩)⟩
            · obtain ⟨rfl, hlines⟩ := hreads.leave hrest houtdents hle
              rw [hlines]
              exact ⟨fun t ht => houtdents t (List.mem_of_mem_drop ht),
                captures_narrower hnarrower hbegins⟩
        | close innermost levels hinput hopen =>
            obtain rfl : depth' + 1 = depth := hcount
            rw [hinput, linesOf_cons_none rfl]
            rcases hraw.closeLevel hpending hopen with hlast | hafter
            · obtain rfl : depth' = 0 := Nat.succ.inj hlast
              cases hrest
              cases hreads
              refine ⟨hraw.pending, ?_⟩
              rw [hinput]
              exact captures_end
            · have hcaptures := ih hrest hafter
              rw [hinput] at hcaptures
              exact hcaptures
        | ended hnone =>
            obtain ⟨inner, outer, hlevels, -⟩ := hraw.levels
            rw [hlevels] at hnone
            exact absurd hnone (by simp)
      · obtain ⟨hkind, hafter⟩ := hraw.takePending hpending
        rw [next, hpending] at hnext
        cases hnext
        rw [linesOf_cons_none (lineOf?_outdent hkind)]
        rw [hkind] at hcount
        obtain rfl : depth' + 1 = depth := hcount
        exact ih hrest hafter

end Lexer

end Stencil
