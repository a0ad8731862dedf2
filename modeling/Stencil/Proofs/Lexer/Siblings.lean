import Mathlib.Data.List.Infix
import Stencil.Proofs.Lexer.Lines
import Stencil.Proofs.Lexer.Margins
import Stencil.Proofs.Lexer.Transparency

/-! # Siblings — lines that are as deep as the line before them

    A line that is not blank is compared with the innermost open level, which need
    not be the width of the line before it: a line that goes back to a width that
    no level has closes the wider levels and opens none (`settle`).  So between two
    lines of one width there is a line break exactly when the level that is open
    at the first one is that width, and else a level is opened at the second
    (`siblings_iff`).

    The invariant is where a lexer stands in the lines of its source (`OnLine`).
    One run takes what stands on a line (`reads_line`), one step crosses blank
    lines to the next line (`enters`), and so every line is reached, with the
    levels that the lines before leave open (`reaches`). -/

namespace Stencil

/-! ## Lines of spaces -/

namespace Text

/-- The lines of a text. -/
def lines (text : List Char) : List (List Char) := text.splitOn '\n'

/-- The number of spaces at the front of a line. -/
def margin (line : List Char) : Nat := (line.takeWhile (· == ' ')).length

/-- A line with nothing on it but spaces. -/
def IsBlankLine (line : List Char) : Prop := dropSpaces line = []

instance (line : List Char) : Decidable (IsBlankLine line) := inferInstanceAs (Decidable (_ = _))

/-- No tab is in the indentation of a line. -/
def InSpaces (line : List Char) : Prop := (dropSpaces line).head? ≠ some '\t'

instance (line : List Char) : Decidable (InSpaces line) := inferInstanceAs (Decidable (_ ≠ _))

/-- The text behind a line, which other lines follow. -/
def followed : List (List Char) → List Char
  | [] => []
  | line :: lines => '\n' :: (line ++ followed lines)

variable {line : List Char}

theorem replicate_margin (line : List Char) :
    List.replicate (margin line) ' ' ++ dropSpaces line = line := by
  have hrun : line.takeWhile (· == ' ') = List.replicate (margin line) ' ' :=
    List.eq_replicate_iff.mpr ⟨rfl, fun c hc => by simpa using List.mem_takeWhile_imp hc⟩
  rw [← hrun]
  exact List.takeWhile_append_dropWhile

theorem eq_replicate_of_isBlankLine (h : IsBlankLine line) :
    line = List.replicate (margin line) ' ' := by
  have hline := replicate_margin line
  rw [h, List.append_nil] at hline
  exact hline.symm

/-- A text is its first line, and the other lines behind it. -/
theorem exists_lines (text : List Char) : ∃ first others, lines text = first :: others
    ∧ text = first ++ followed others ∧ ∀ line ∈ first :: others, '\n' ∉ line := by
  induction text with
  | nil => exact ⟨[], [], rfl, rfl, by simp⟩
  | cons c text ih =>
      obtain ⟨first, others, hlines, rfl, hline⟩ := ih
      replace hlines : (first ++ followed others).splitOnP (· == '\n') = first :: others := hlines
      by_cases hc : c = '\n'
      · refine ⟨[], first :: others, ?_, ?_, List.forall_mem_cons.mpr ⟨List.not_mem_nil, hline⟩⟩
        · rw [lines, List.splitOn, List.splitOnP_cons_eq_if_modifyHead, if_pos (beq_iff_eq.mpr hc),
            hlines]
        · rw [hc]
          rfl
      · refine ⟨c :: first, others, ?_, rfl, ?_⟩
        · rw [lines, List.splitOn, List.splitOnP_cons_eq_if_modifyHead, if_neg (by simpa using hc),
            hlines]
          rfl
        · obtain ⟨hfirst, hothers⟩ := List.forall_mem_cons.mp hline
          refine List.forall_mem_cons.mpr ⟨fun hmem => ?_, hothers⟩
          exact (List.mem_cons.mp hmem).elim (fun h => hc h.symm) hfirst

theorem endsLine_followed (lines : List (List Char)) : EndsLine (followed lines) := by
  intro c hc
  cases lines with
  | nil => exact nomatch hc
  | cons line lines => exact (Option.some.inj hc).symm

/-- Something begins on a line that is not blank, behind its spaces. -/
theorem begins_of_not_blank (hspaces : InSpaces line) (hline : '\n' ∉ line)
    (hblank : ¬ IsBlankLine line) (rest : List Char) : Begins (dropSpaces line ++ rest) := by
  rcases hdrop : dropSpaces line with - | ⟨c, behind⟩
  · exact absurd hdrop hblank
  · have hspace : (c == ' ') = false := by
      have hstops := stops_dropWhile (· == ' ') line
      rw [dropSpaces] at hdrop
      rw [hdrop] at hstops
      exact hstops c rfl
    have htab : c ≠ '\t' := by
      rintro rfl
      rw [InSpaces, hdrop] at hspaces
      exact hspaces rfl
    have hnewline : c ≠ '\n' := by
      rintro rfl
      refine hline ?_
      rw [← replicate_margin line, hdrop]
      exact List.mem_append_right _ (.head _)
    exact ⟨c, behind ++ rest, rfl, by simp [isIndentation, hspace, htab], hnewline⟩

end Text

open Text

/-- The levels that are open behind some lines, innermost first, from those before them: blank lines
    leave them as they are. -/
def settleLines (levels : List Nat) (lines : List (List Char)) : List Nat :=
  lines.foldl (fun levels line =>
    if IsBlankLine line then levels else BodyLine.settle levels (margin line)) levels

/-- The levels that are open behind the first lines of a source.  The indentation of the very first
    line does not count. -/
def levelsBehind (lines : List (List Char)) : List Nat := settleLines [] lines.tail

/-- A token of what stands on a line. -/
def Token.isContentOn (line : Nat) (token : Token) : Bool :=
  token.line == line && !token.kind.isStructural

/-- The tokens between those of one line and those of a later one. -/
def tokensBetween (first second : Nat) (tokens : List Token) : List Token :=
  ((tokens.dropWhile (!·.isContentOn first)).dropWhile (·.isContentOn first)).takeWhile
    (!·.isContentOn second)

namespace Lexer

/-- No attribute list goes on behind the end of its line. -/
def HasShortLists (lexer : Lexer) : Prop :=
  ∀ ⦃tokens : List Token⦄ ⦃state : Lexer⦄ ⦃text body rest : List Char⦄,
    Reads lexer tokens state → state.pending = [] → state.input = '(' :: text →
      group? 0 text = some (body, rest) → '\n' ∉ body

variable {lexer after last : Lexer} {token : Token} {tokens : List Token} {text : List Char}

/-! ## What is left of the text -/

theorem readLineBreak_suffix (lexer : Lexer) (text : List Char) :
    (lexer.readLineBreak text).2.input <:+ text := by
  have hentered : (lexer.enterLine text).input <:+ text := List.drop_suffix _ _
  unfold readLineBreak
  simp only
  split
  · exact hentered
  · split
    · exact hentered
    · split
      · exact hentered
      · unfold placeLine
        simp only
        split
        · exact hentered
        · split <;> exact hentered

theorem scanLine_suffix (lexer : Lexer) : lexer.scanLine.2.input <:+ lexer.input := by
  unfold scanLine
  split
  · unfold readEnd
    split <;> exact List.suffix_rfl
  · next text hinput =>
      rw [hinput]
      exact (readLineBreak_suffix lexer text).trans (List.suffix_cons _ _)
  · next c text hc hinput =>
      cases lexer.mode with
      | raw => exact List.dropWhile_suffix _
      | markup =>
          simp only
          split
          · unfold readAttributes
            split
            · exact List.suffix_rfl
            · next body rest hgroup =>
                obtain ⟨slash, hslash, -⟩ := Form.closed_keepsLine rest
                have hbehind : rest <:+ text := by
                  rw [(group?_eq_some_iff.mp hgroup).2]
                  exact (List.suffix_cons _ _).trans (List.suffix_append _ _)
                rw [hinput]
                exact (List.IsSuffix.trans ⟨slash, hslash.symm⟩ hbehind).trans
                  (List.suffix_cons _ _)
          · unfold readForm
            split
            · exact List.suffix_rfl
            · next found hfound =>
                obtain ⟨taken, htaken, -⟩ := Form.first?_keepsLine hfound
                exact ⟨taken, htaken.symm⟩

theorem afterBlankLine?_suffix {rest : List Char} (h : afterBlankLine? text = some rest) :
    rest <:+ text := by
  obtain ⟨count, more, -, rfl⟩ := afterBlankLine?_spaces h
  exact (List.suffix_append _ _).trans (List.suffix_cons _ _)

theorem skipBlankLines_suffix (fuel : Nat) : ∀ lexer : Lexer,
    (lexer.skipBlankLines fuel).input <:+ lexer.input := by
  induction fuel with
  | zero => exact fun _ => List.suffix_rfl
  | succ fuel ih =>
      intro lexer
      rw [skipBlankLines]
      split
      · next rest hrest => exact (ih _).trans (afterBlankLine?_suffix hrest)
      · exact List.suffix_rfl

/-- A step leaves a part of the text, up to its end. -/
theorem next_suffix (lexer : Lexer) : lexer.next.2.input <:+ lexer.input := by
  unfold Lexer.next
  split
  · exact List.suffix_rfl
  · unfold scan
    split
    · exact scanLine_suffix lexer
    · next rest hrest =>
        have hbehind := afterBlankLine?_suffix hrest
        cases lexer.mode with
        | raw => exact hbehind
        | markup => exact ((scanLine_suffix _).trans (skipBlankLines_suffix _ _)).trans hbehind

theorem Reads.suffix (h : Reads lexer tokens last) : last.input <:+ lexer.input := by
  induction h with
  | done lexer => exact List.suffix_rfl
  | @take lexer after last token tokens hnext _ ih =>
      have hafter := next_suffix lexer
      rw [hnext] at hafter
      exact ih.trans hafter

/-- Whether a list that would start a text ends on its line. -/
def endsOnLine : List Char → Bool
  | '(' :: text => (group? 0 text).all fun found => !found.1.contains '\n'
  | _ => true

/-- Where every list that could start ends on its line, every list does that does start. -/
theorem hasShortLists_of_tails (h : lexer.input.tails.all endsOnLine) : lexer.HasShortLists := by
  intro tokens state text body rest hreads _ hinput hgroup
  have hends := List.all_eq_true.mp h _ ((List.mem_tails _ _).mpr hreads.suffix)
  rw [hinput, endsOnLine, hgroup] at hends
  simpa using hends

/-! ## Sources that are read to their end -/

/-- A lexer that gives tokens up to the end of the stream, without lists of several lines. -/
structure Flows (lexer : Lexer) : Prop where
  untouched : lexer.Untouched
  ends : lexer.drain.2.1 = none
  lists : lexer.HasShortLists

theorem Flows.exists_next (h : lexer.Flows) : ∃ token after, lexer.next = (.ok token, after) := by
  rcases hnext : lexer.next with ⟨fault | token, after⟩
  · have hends := h.ends
    rw [drain_of_error h.untouched hnext] at hends
    exact nomatch hends
  · exact ⟨token, after, rfl⟩

theorem Flows.next (h : lexer.Flows) (hnext : lexer.next = (.ok token, after))
    (hne : token.kind ≠ .eos) : after.Flows where
  untouched := h.untouched.next hnext
  ends := by
    have hends := h.ends
    rw [drain_of_next h.untouched hnext hne] at hends
    exact hends
  lists := fun _ _ _ _ _ hreads => h.lists (.take hnext hreads)

/-- Tokens that come before the end of the stream. -/
def Passes (lexer : Lexer) (tokens : List Token) (last : Lexer) : Prop :=
  Reads lexer tokens last ∧ ∀ t ∈ tokens, t.kind ≠ .eos

theorem Passes.drain (h : lexer.Passes tokens last) (huntouched : lexer.Untouched) :
    lexer.drain = (tokens ++ last.drain.1, last.drain.2) := by
  obtain ⟨hreads, hne⟩ := h
  induction hreads with
  | done lexer => rfl
  | take hnext _ ih =>
      obtain ⟨hfirst, hrest⟩ := List.forall_mem_cons.mp hne
      rw [drain_of_next huntouched hnext hfirst, ih (huntouched.next hnext) hrest]
      rfl

theorem Passes.flows (h : lexer.Passes tokens last) (hflows : lexer.Flows) : last.Flows := by
  obtain ⟨hreads, hne⟩ := h
  induction hreads with
  | done lexer => exact hflows
  | take hnext _ ih =>
      obtain ⟨hfirst, hrest⟩ := List.forall_mem_cons.mp hne
      exact ih (hflows.next hnext hfirst) hrest

/-! ## Where a lexer stands in its source -/

/-- A lexer on a line, with what is left of that line, the lines behind it and the open levels. -/
structure OnLine (number : Nat) (rest : List Char) (lines : List (List Char)) (levels : List Nat)
    (lexer : Lexer) : Prop where
  input : lexer.input = rest ++ followed lines
  line : lexer.line = number
  mode : lexer.mode = .markup
  levels : lexer.levels = levels
  lock : ∀ settled, lexer.lock = some settled → settled.style = .spaces
  oneLine : '\n' ∉ rest

variable {number : Nat} {rest : List Char} {lines : List (List Char)} {levels : List Nat}

theorem OnLine.withPending (h : OnLine number rest lines levels lexer) (pending : List Token) :
    OnLine number rest lines levels { lexer with pending } :=
  ⟨h.input, h.line, h.mode, h.levels, h.lock, h.oneLine⟩

/-- Behind a part of the line, the line has a rest again. -/
theorem OnLine.keepsLine (h : OnLine number rest lines levels lexer) {input : List Char}
    (hkeeps : KeepsLine lexer.input input) :
    ∃ rest', OnLine number rest' lines levels { lexer with input } := by
  obtain ⟨taken, hsplit, htaken⟩ := hkeeps
  rw [h.input] at hsplit
  rcases List.append_eq_append_iff.mp hsplit with ⟨more, htaken', hmore⟩ | ⟨rest', hrest, hinput⟩
  · have hnil : more = [] := by
      rcases more with - | ⟨c, more⟩
      · rfl
      · obtain rfl := endsLine_followed lines c (by rw [hmore]; rfl)
        exact absurd (htaken' ▸ List.mem_append_right _ (.head _)) htaken
    rw [hnil, List.nil_append] at hmore
    exact ⟨[], hmore.symm, h.line, h.mode, h.levels, h.lock, List.not_mem_nil⟩
  · refine ⟨rest', hinput, h.line, h.mode, h.levels, h.lock, fun hmem => h.oneLine ?_⟩
    rw [hrest]
    exact List.mem_append_right _ hmem

theorem isContentOn_of_line (hline : token.line = number)
    (hkind : token.kind.isStructural = false) : token.isContentOn number := by
  simp [Token.isContentOn, hline, hkind]

theorem ne_eos_of_isContentOn (h : token.isContentOn number) : token.kind ≠ .eos := by
  intro heos
  simp [Token.isContentOn, heos, TokenKind.isStructural] at h

/-- **One step on a line** takes a part of it. -/
theorem OnLine.next (h : OnLine number rest lines levels lexer) (hflows : lexer.Flows)
    (hpending : lexer.pending = []) (hrest : rest ≠ [])
    (hnext : lexer.next = (.ok token, after)) :
    token.isContentOn number ∧ (∀ t ∈ after.pending, t.isContentOn number)
      ∧ ∃ rest', OnLine number rest' lines levels after := by
  obtain ⟨c, text, rfl⟩ := List.exists_cons_of_ne_nil hrest
  have hc : c ≠ '\n' := by
    rintro rfl
    exact h.oneLine (.head _)
  have hinput : lexer.input = c :: (text ++ followed lines) := h.input
  have hblank : afterBlankLine? lexer.input = none := by
    rw [hinput]
    simp [afterBlankLine?, hc]
  rw [next_eq_scanLine hpending hblank, scanLine, hinput, h.mode] at hnext
  by_cases hlist : c = '('
  · subst hlist
    replace hnext : lexer.readAttributes (text ++ followed lines) = (.ok token, after) := hnext
    unfold readAttributes at hnext
    split at hnext
    · cases hnext
    · next body behind hgroup =>
        cases hnext
        -- the list ends on its line
        have hbody : '\n' ∉ body := hflows.lists (.done lexer) hpending hinput hgroup
        have htext := (group?_eq_some_iff.mp hgroup).2
        have hkeeps : KeepsLine lexer.input behind := by
          refine ⟨'(' :: (body ++ [')']), ?_, by simp [hbody]⟩
          rw [hinput, htext]
          simp
        obtain ⟨rest', hon⟩ := h.keepsLine (hkeeps.trans (Form.closed_keepsLine behind))
        refine ⟨isContentOn_of_line (congrArg Int.ofNat h.line) rfl, ?_, rest', ?_⟩
        · simp [hpending]
        · refine ⟨hon.input, ?_, hon.mode, hon.levels, hon.lock, hon.oneLine⟩
          have hnone : Text.countNewlines body = 0 := List.count_eq_zero.mpr hbody
          simp only [hnone, Nat.add_zero, h.line]
  · have hform : lexer.readForm = (.ok token, after) := by
      simpa [hc, hlist] using hnext
    unfold readForm at hform
    split at hform
    · cases hform
    · next found hfound =>
        cases hform
        obtain ⟨rest', hon⟩ := h.keepsLine (Form.first?_keepsLine hfound)
        refine ⟨isContentOn_of_line (congrArg Int.ofNat h.line) (Form.first?_kind hfound), ?_,
          rest', hon.withPending _⟩
        intro follower hfollower
        rw [hpending, List.nil_append] at hfollower
        split at hfollower
        · obtain rfl := List.mem_singleton.mp hfollower
          exact isContentOn_of_line (congrArg Int.ofNat h.line) rfl
        · cases hfollower

/-- **What stands on a line** gives tokens on that line, and the lexer is at its end. -/
theorem OnLine.reads_line (potential : Nat) : ∀ {lexer : Lexer} {rest : List Char},
    lexer.potential < potential → OnLine number rest lines levels lexer → lexer.Flows →
      (∀ t ∈ lexer.pending, t.isContentOn number) →
      ∃ tokens last, lexer.Passes tokens last ∧ (∀ t ∈ tokens, t.isContentOn number)
        ∧ OnLine number [] lines levels last ∧ last.pending = [] ∧ (rest ≠ [] → tokens ≠ []) := by
  induction potential with
  | zero => exact fun hlt => absurd hlt (Nat.not_lt_zero _)
  | succ potential ih =>
      intro lexer rest hlt h hflows hpendings
      obtain ⟨token, after, hnext⟩ := hflows.exists_next
      have hstep : ∀ {rest' : List Char}, token.isContentOn number →
          OnLine number rest' lines levels after → (∀ t ∈ after.pending, t.isContentOn number) →
          ∃ tokens last, lexer.Passes tokens last ∧ (∀ t ∈ tokens, t.isContentOn number)
            ∧ OnLine number [] lines levels last ∧ last.pending = []
            ∧ (rest ≠ [] → tokens ≠ []) := by
        intro rest' htoken hafter hwaiting
        have hne := ne_eos_of_isContentOn htoken
        have hless := (next_progress hnext).lt hne
        obtain ⟨tokens, last, ⟨hreads, hpasses⟩, hcontent, hlast, hnone, -⟩ :=
          ih (by omega) hafter (hflows.next hnext hne) hwaiting
        exact ⟨token :: tokens, last, ⟨.take hnext hreads, List.forall_mem_cons.mpr ⟨hne, hpasses⟩⟩,
          List.forall_mem_cons.mpr ⟨htoken, hcontent⟩, hlast, hnone, fun _ => List.cons_ne_nil _ _⟩
      rcases hpending : lexer.pending with - | ⟨first, pending⟩
      · by_cases hrest : rest = []
        · subst hrest
          exact ⟨[], lexer, ⟨.done lexer, nofun⟩, nofun, h, hpending, fun hne => absurd rfl hne⟩
        · obtain ⟨htoken, hwaiting, rest', hafter⟩ := h.next hflows hpending hrest hnext
          exact hstep htoken hafter hwaiting
      · rw [hpending] at hpendings
        obtain ⟨hfirst, hwaiting⟩ := List.forall_mem_cons.mp hpendings
        have htake := hnext
        unfold Lexer.next at htake
        rw [hpending] at htake
        cases htake
        exact hstep hfirst (h.withPending pending) hwaiting

/-! ## Over blank lines to the next line -/

section Entering

variable {line : List Char} {blanks : List (List Char)}

theorem afterBlankLine?_blank (hline : IsBlankLine line) (text : List Char) :
    afterBlankLine? ('\n' :: (line ++ '\n' :: text)) = some ('\n' :: text) := by
  have hdrop : dropSpaces (line ++ '\n' :: text) = '\n' :: text := by
    rw [eq_replicate_of_isBlankLine hline, dropSpaces,
      dropWhile_line (fun c hc => by simp [List.eq_of_mem_replicate hc])]
    rintro _ ⟨rfl⟩
    rfl
  simp [afterBlankLine?, hdrop]

theorem afterBlankLine?_line (hspaces : InSpaces line) (hone : '\n' ∉ line)
    (hline : ¬ IsBlankLine line) (text : List Char) :
    afterBlankLine? ('\n' :: (line ++ text)) = none := by
  have hbegins := begins_of_not_blank hspaces hone hline text
  have h := hbegins.afterBlankLine? .spaces (margin line)
  rw [← List.append_assoc] at h
  rwa [← replicate_margin line]

/-- Blank lines are skipped up to a line that is not. -/
theorem skipBlankLines_blank (hspaces : InSpaces line) (hone : '\n' ∉ line)
    (hline : ¬ IsBlankLine line) : ∀ {blanks : List (List Char)} {fuel : Nat} {lexer : Lexer},
      (∀ blank ∈ blanks, IsBlankLine blank) → blanks.length ≤ fuel →
      lexer.input = followed (blanks ++ line :: lines) →
      lexer.skipBlankLines fuel
        = { lexer with input := followed (line :: lines), line := lexer.line + blanks.length }
  | [], fuel, lexer, _, _, hinput => by
      have hnone := afterBlankLine?_line hspaces hone hline (followed lines)
      have hsame : lexer = { lexer with input := followed (line :: lines) } := by
        rw [show followed (line :: lines) = lexer.input from hinput.symm]
      cases fuel with
      | zero => exact hsame
      | succ fuel =>
          rw [skipBlankLines, hinput]
          simp only [List.nil_append, followed, hnone]
          exact hsame
  | blank :: blanks, 0, _, _, hle, _ => absurd hle (Nat.not_succ_le_zero _)
  | blank :: blanks, fuel + 1, lexer, hblanks, hle, hinput => by
      obtain ⟨hblank, hothers⟩ := List.forall_mem_cons.mp hblanks
      have hrest : ∃ text, followed (blanks ++ line :: lines) = '\n' :: text := by
        cases blanks <;> exact ⟨_, rfl⟩
      obtain ⟨text, htext⟩ := hrest
      have hafter : afterBlankLine? lexer.input = some (followed (blanks ++ line :: lines)) := by
        rw [hinput, List.cons_append, followed, htext]
        exact afterBlankLine?_blank hblank text
      rw [skipBlankLines, hafter]
      have hcount : lexer.line + (blank :: blanks).length = lexer.line + 1 + blanks.length := by
        rw [List.length_cons]
        omega
      rw [hcount]
      exact skipBlankLines_blank hspaces hone hline hothers (Nat.le_of_succ_le_succ hle) rfl

theorem length_le_followed (lines : List (List Char)) : lines.length ≤ (followed lines).length := by
  induction lines with
  | nil => exact Nat.le_refl _
  | cons line lines ih =>
      simp only [followed, List.length_cons, List.length_append]
      omega

/-- **Blank lines say nothing**: the step at the end of a line reads the line break before the next
    line that is not blank. -/
theorem OnLine.next_eq (h : OnLine number [] (blanks ++ line :: lines) levels lexer)
    (hpending : lexer.pending = []) (hblanks : ∀ blank ∈ blanks, IsBlankLine blank)
    (hspaces : InSpaces line) (hone : '\n' ∉ line) (hline : ¬ IsBlankLine line) :
    lexer.next = { lexer with
        input := followed (line :: lines), line := number + blanks.length }.readLineBreak
          (line ++ followed lines) := by
  have hinput : lexer.input = followed (blanks ++ line :: lines) := h.input
  have hnext : lexer.next = lexer.scan := by
    unfold Lexer.next
    rw [hpending]
  rw [hnext, ← h.line, scan]
  cases blanks with
  | nil =>
      rw [List.nil_append, followed] at hinput
      rw [hinput, afterBlankLine?_line hspaces hone hline, followed, ← hinput]
      simp only [scanLine, hinput]
      rfl
  | cons blank blanks =>
      obtain ⟨hblank, hothers⟩ := List.forall_mem_cons.mp hblanks
      obtain ⟨text, htext⟩ : ∃ text, followed (blanks ++ line :: lines) = '\n' :: text := by
        cases blanks <;> exact ⟨_, rfl⟩
      have hafter : afterBlankLine? lexer.input = some (followed (blanks ++ line :: lines)) := by
        rw [hinput, List.cons_append, followed, htext]
        exact afterBlankLine?_blank hblank text
      have hfuel : blanks.length ≤ (followed (blanks ++ line :: lines)).length := by
        have := length_le_followed (blanks ++ line :: lines)
        rw [List.length_append] at this
        omega
      have hcount : lexer.line + (blank :: blanks).length = lexer.line + 1 + blanks.length := by
        rw [List.length_cons]
        omega
      rw [hafter, h.mode, hcount]
      simp only
      rw [skipBlankLines_blank hspaces hone hline hothers hfuel rfl]
      rfl

/-- Whatever its width, a line can be placed; that settles the levels. -/
theorem placeLine_settle (lexer : Lexer) (width : Nat) : ∃ token after,
    lexer.placeLine width = (.ok token, after)
      ∧ after = { lexer with
          levels := BodyLine.settle lexer.levels width, pending := after.pending }
      ∧ token.line = lexer.line ∧ token.kind.isStructural ∧ token.kind ≠ .eos
      ∧ (∃ count, after.pending = lexer.pending ++ List.replicate count (lexer.token .outdent))
      ∧ (lexer.levels.headD 0 ≤ width → after.pending = lexer.pending
        ∧ token.kind = if lexer.levels.headD 0 = width then .newline else .indent) := by
  unfold placeLine
  simp only
  split
  · next hnarrow =>
      refine ⟨_, _, rfl, ?_, rfl, rfl, nofun, ⟨_, rfl⟩, fun hle => absurd hnarrow hle.not_gt⟩
      rw [BodyLine.settle_of_le hnarrow.le]
  · next hnarrow =>
      split
      · next hwide =>
          refine ⟨_, _, rfl, ?_, rfl, rfl, nofun, ⟨0, (List.append_nil _).symm⟩, fun _ => ⟨rfl, ?_⟩⟩
          · rw [BodyLine.settle_of_lt hwide]
          · rw [if_neg hwide.ne]
            rfl
      · next hwide =>
          have hsame : lexer.levels.headD 0 = width := by omega
          refine ⟨_, _, rfl, ?_, rfl, rfl, nofun, ⟨0, (List.append_nil _).symm⟩, fun _ => ⟨rfl, ?_⟩⟩
          · rw [BodyLine.settle_of_eq hsame]
          · rw [if_pos hsame]
            rfl

/-- Between lines that are indented with spaces, that is how a line is measured. -/
theorem styleFor_spaces (hlock : ∀ settled, lexer.lock = some settled → settled.style = .spaces)
    (hspaces : InSpaces line) (hline : ¬ IsBlankLine line) (text : List Char) :
    styleFor lexer.lock (line ++ text) = .spaces := by
  unfold styleFor
  split
  · next settled hsettled => exact hlock settled hsettled
  · refine if_neg fun htab => hspaces ?_
    rcases line with - | ⟨c, line⟩
    · exact absurd rfl hline
    · obtain rfl : c = '\t' := by simpa using htab
      rfl

/-- A line that is indented with spaces is placed by its margin. -/
theorem readLineBreak_line (hlock : ∀ settled, lexer.lock = some settled → settled.style = .spaces)
    (hspaces : InSpaces line) (hone : '\n' ∉ line) (hline : ¬ IsBlankLine line) (text : List Char) :
    ∃ entered : Lexer, lexer.readLineBreak (line ++ text) = entered.placeLine (margin line)
      ∧ (∀ settled, entered.lock = some settled → settled.style = .spaces)
      ∧ entered = { lexer with
          input := dropSpaces line ++ text, line := lexer.line + 1, lock := entered.lock } := by
  have hbegins := begins_of_not_blank hspaces hone hline text
  have hsplit : line ++ text = List.replicate (margin line) ' ' ++ (dropSpaces line ++ text) := by
    rw [← List.append_assoc, replicate_margin]
  have hstyle := styleFor_spaces hlock hspaces hline text
  have hwidth : widthIn (styleFor lexer.lock (line ++ text)) (line ++ text) = margin line := by
    rw [hstyle, hsplit]
    exact hbegins.widthIn .spaces _
  have hinput : (lexer.enterLine (line ++ text)).input = dropSpaces line ++ text := by
    simp only [enterLine, hwidth]
    rw [hsplit, List.drop_left' List.length_replicate]
  refine ⟨lexer.enterLine (line ++ text), ?_, ?_, ?_⟩
  · obtain ⟨c, behind, hc, hindentation, hnewline⟩ := hbegins
    have hnot : (c == ' ' || c == '\t') = false := hindentation
    unfold readLineBreak
    simp [hwidth, hinput, hc, hnot, hnewline]
  · intro settled hsettled
    simp only [enterLine, hstyle] at hsettled
    cases hlocked : lexer.lock with
    | some other => exact hlock settled (hlocked.trans (by simpa [hlocked] using hsettled))
    | none =>
        rw [hlocked] at hsettled
        split at hsettled
        · cases hsettled
        · cases hsettled
          rfl
  · rw [← hinput]
    rfl

/-- **One step over a line break**: the next line that is not blank is entered, and its margin
    settles the levels. -/
theorem OnLine.enters (h : OnLine number [] (blanks ++ line :: lines) levels lexer)
    (hpending : lexer.pending = []) (hblanks : ∀ blank ∈ blanks, IsBlankLine blank)
    (hspaces : InSpaces line) (hone : '\n' ∉ line) (hline : ¬ IsBlankLine line) :
    ∃ token after, lexer.next = (.ok token, after) ∧ token.kind.isStructural ∧ token.kind ≠ .eos
      ∧ OnLine (number + blanks.length + 1) (dropSpaces line) lines
        (BodyLine.settle levels (margin line)) after
      ∧ (∀ t ∈ after.pending, t.kind = .outdent)
      ∧ (levels.headD 0 ≤ margin line → after.pending = []
        ∧ token.kind = if levels.headD 0 = margin line then .newline else .indent) := by
  have hlocked : ∀ settled, Lexer.lock { lexer with
      input := followed (line :: lines), line := number + blanks.length } = some settled →
      settled.style = .spaces := h.lock
  obtain ⟨entered, hbreak, hlock, hentered⟩ :=
    readLineBreak_line hlocked hspaces hone hline (followed lines)
  obtain ⟨token, after, hplace, hafter, hnumber, hkind, hne, ⟨count, houtdents⟩, hgap⟩ :=
    placeLine_settle entered (margin line)
  have hlevels : entered.levels = levels := by
    rw [hentered]
    exact h.levels
  have hwaiting : entered.pending = [] := by
    rw [hentered]
    exact hpending
  rw [hlevels, hwaiting] at hgap
  rw [hwaiting, List.nil_append] at houtdents
  refine ⟨token, after, ?_, hkind, hne, ?_, ?_, hgap⟩
  · rw [h.next_eq hpending hblanks hspaces hone hline, hbreak, hplace]
  · refine ⟨?_, ?_, ?_, ?_, ?_, ?_⟩
    · rw [hafter, hentered]
    · rw [hafter, hentered]
    · rw [hafter, hentered]
      exact h.mode
    · rw [hafter, ← hlevels]
    · rw [hafter]
      exact hlock
    · intro hmem
      refine hone ?_
      rw [← replicate_margin line]
      exact List.mem_append_right _ hmem
  · intro t ht
    rw [houtdents] at ht
    rw [List.eq_of_mem_replicate ht]
    rfl

end Entering

/-! ## From line to line -/

section Lines

variable {line : List Char} {before blanks : List (List Char)}

/-- An indented line can be read: its indentation is spaces. -/
structure Legible (line : List Char) : Prop where
  spaces : InSpaces line
  oneLine : '\n' ∉ line

theorem Passes.append {middle : Lexer} {more : List Token} (h : lexer.Passes tokens middle)
    (hmore : middle.Passes more last) : lexer.Passes (tokens ++ more) last :=
  ⟨h.1.append hmore.1, fun t ht => (List.mem_append.mp ht).elim (h.2 t) (hmore.2 t)⟩

/-- The next line that is not blank, up to what stands on it. -/
theorem OnLine.reads_next (h : OnLine number [] (blanks ++ line :: lines) levels lexer)
    (hpending : lexer.pending = []) (hblanks : ∀ blank ∈ blanks, IsBlankLine blank)
    (hlegible : Legible line) (hline : ¬ IsBlankLine line) :
    ∃ tokens last, lexer.Passes tokens last ∧ (∀ t ∈ tokens, t.kind.isStructural)
      ∧ OnLine (number + blanks.length + 1) (dropSpaces line) lines
        (BodyLine.settle levels (margin line)) last ∧ last.pending = [] := by
  obtain ⟨token, after, hnext, hkind, hne, hon, houtdents, -⟩ :=
    h.enters hpending hblanks hlegible.spaces hlegible.oneLine hline
  have hrest : Reads after after.pending { after with pending := [] } :=
    reads_pending (List.append_nil _).symm
  refine ⟨token :: after.pending, _, ⟨.take hnext hrest, ?_⟩, ?_, hon.withPending [], rfl⟩
  · refine List.forall_mem_cons.mpr ⟨hne, fun t ht heos => ?_⟩
    exact nomatch (houtdents t ht).symm.trans heos
  · refine List.forall_mem_cons.mpr ⟨hkind, fun t ht => ?_⟩
    rw [houtdents t ht]
    rfl

theorem not_isContentOn_of_structural (h : token.kind.isStructural = true) :
    token.isContentOn number = false := by
  simp [Token.isContentOn, h]

theorem not_isContentOn_of_ne {other : Nat} (h : token.isContentOn other) (hne : other ≠ number) :
    token.isContentOn number = false := by
  simp only [Token.isContentOn, Bool.and_eq_true, beq_iff_eq] at h
  simp only [Token.isContentOn, h.1, Bool.and_eq_false_iff, beq_eq_false_iff_ne]
  exact .inl (by omega)

/-- **Every line that is not blank is reached**, with the levels that the lines before it and its
    own margin leave open; nothing of it has been taken. -/
theorem OnLine.reaches (hline : ¬ IsBlankLine line) : ∀ {before blanks : List (List Char)}
    {number : Nat} {levels : List Nat} {lexer : Lexer},
    OnLine number [] (blanks ++ (before ++ line :: lines)) levels lexer → lexer.Flows →
      lexer.pending = [] → (∀ blank ∈ blanks, IsBlankLine blank) →
      (∀ other ∈ before ++ [line], Legible other) →
      ∃ tokens last, lexer.Passes tokens last
        ∧ (∀ t ∈ tokens, t.isContentOn (number + blanks.length + before.length + 1) = false)
        ∧ OnLine (number + blanks.length + before.length + 1) (dropSpaces line) lines
          (settleLines levels (before ++ [line])) last ∧ last.pending = []
  | [], blanks, number, levels, lexer, h, _, hpending, hblanks, hlegible => by
      obtain ⟨tokens, last, hpasses, hkinds, hlast, hnone⟩ :=
        h.reads_next hpending hblanks (hlegible line (by simp)) hline
      refine ⟨tokens, last, hpasses, fun t ht => not_isContentOn_of_structural (hkinds t ht), ?_,
        hnone⟩
      simpa [settleLines, hline] using hlast
  | other :: before, blanks, number, levels, lexer, h, hflows, hpending, hblanks, hlegible => by
      obtain ⟨hother, hothers⟩ := List.forall_mem_cons.mp hlegible
      by_cases hblank : IsBlankLine other
      · -- one blank line more to be skipped
        have hmore : OnLine number [] ((blanks ++ [other]) ++ (before ++ line :: lines)) levels
            lexer := by
          rw [List.append_assoc]
          exact h
        obtain ⟨tokens, last, hpasses, hothers, hlast, hnone⟩ :=
          OnLine.reaches hline hmore hflows hpending (fun blank hmem =>
            (List.mem_append.mp hmem).elim (hblanks blank) fun hmem =>
              List.mem_singleton.mp hmem ▸ hblank) hothers
        have hcount : number + (blanks ++ [other]).length + before.length + 1
            = number + blanks.length + (other :: before).length + 1 := by
          simp only [List.length_append, List.length_cons, List.length_nil]
          omega
        rw [hcount] at hothers hlast
        refine ⟨tokens, last, hpasses, hothers, ?_, hnone⟩
        simpa [settleLines, hblank] using hlast
      · obtain ⟨enters, middle, hpasses, hkinds, hmiddle, hwaiting⟩ :=
          h.reads_next hpending hblanks hother hblank
        obtain ⟨taken, behind, hpasses', hcontent, hbehind, hwaiting', -⟩ :=
          hmiddle.reads_line _ (Nat.lt_succ_self _) (hpasses.flows hflows) (by simp [hwaiting])
        have hbehind' : OnLine _ [] ([] ++ (before ++ line :: lines)) _ behind := hbehind
        obtain ⟨tokens, last, hpasses'', hothers, hlast, hnone⟩ :=
          OnLine.reaches hline hbehind' (hpasses'.flows (hpasses.flows hflows)) hwaiting' nofun
            hothers
        have hcount :
            number + blanks.length + 1 + ([] : List (List Char)).length + before.length + 1
              = number + blanks.length + (other :: before).length + 1 := by
          simp only [List.length_cons, List.length_nil]
          omega
        rw [hcount] at hothers hlast
        refine ⟨enters ++ (taken ++ tokens), last, hpasses.append (hpasses'.append hpasses''), ?_,
          ?_, hnone⟩
        · intro t ht
          rcases List.mem_append.mp ht with ht | ht
          · exact not_isContentOn_of_structural (hkinds t ht)
          · rcases List.mem_append.mp ht with ht | ht
            · exact not_isContentOn_of_ne (hcontent t ht) (by simp only [List.length_cons]; omega)
            · exact hothers t ht
        · simpa [settleLines, hblank] using hlast

/-- What stands on the first line of a source is reached at once, and any other line in the end. -/
theorem reaches_ofSource {source : String} {colons : Bool}
    (hlines : Text.lines (Text.normalizeNewlines source.toList) = before ++ line :: lines)
    (hspaces : ∀ line ∈ Text.lines (Text.normalizeNewlines source.toList), InSpaces line)
    (hflows : (ofSource source colons).Flows) (hline : ¬ IsBlankLine line) :
    ∃ rest tokens last, (ofSource source colons).Passes tokens last
      ∧ (∀ t ∈ tokens, t.isContentOn (before.length + 1) = false) ∧ rest ≠ []
      ∧ OnLine (before.length + 1) rest lines (levelsBehind (before ++ [line])) last
      ∧ last.pending = [] := by
  obtain ⟨first, others, hsplit, htext, hone⟩ :=
    exists_lines (Text.normalizeNewlines source.toList)
  have hstart : OnLine 1 first others [] (ofSource source colons) :=
    ⟨htext, rfl, rfl, rfl, nofun, hone first (.head _)⟩
  rw [hsplit] at hlines hspaces
  rcases before with - | ⟨other, before⟩
  · obtain ⟨rfl, rfl⟩ := List.cons.inj hlines
    refine ⟨first, [], _, ⟨.done _, nofun⟩, nofun, ?_, hstart, rfl⟩
    rintro rfl
    exact hline rfl
  · obtain ⟨rfl, rfl⟩ := List.cons.inj hlines
    obtain ⟨taken, behind, hpasses, hcontent, hbehind, hwaiting, -⟩ :=
      hstart.reads_line _ (Nat.lt_succ_self _) hflows nofun
    have hlegible : ∀ other ∈ before ++ [line], Legible other := fun other hother => by
      have hmem : other ∈ first :: (before ++ line :: lines) := by
        refine .tail _ ?_
        rcases List.mem_append.mp hother with h | h
        · exact List.mem_append_left _ h
        · exact List.mem_append_right _ (List.mem_singleton.mp h ▸ .head _)
      exact ⟨hspaces other hmem, hone other hmem⟩
    have hbehind' : OnLine _ [] ([] ++ (before ++ line :: lines)) _ behind := hbehind
    obtain ⟨tokens, last, hpasses', hothers, hlast, hnone⟩ :=
      OnLine.reaches hline hbehind' (hpasses.flows hflows) hwaiting nofun hlegible
    have hcount : 1 + ([] : List (List Char)).length + before.length + 1
        = (first :: before).length + 1 := by
      simp only [List.length_cons, List.length_nil]
      omega
    rw [hcount] at hothers hlast
    refine ⟨_, taken ++ tokens, last, hpasses.append hpasses', fun t ht => ?_, hline, hlast, hnone⟩
    rcases List.mem_append.mp ht with ht | ht
    · exact not_isContentOn_of_ne (hcontent t ht) (by simp)
    · exact hothers t ht

/-- The tokens between two lines are told from where those of the lines stand. -/
theorem tokensBetween_eq {first second : Nat} {earlier ofFirst gap later : List Token}
    {next : Token} (hearlier : ∀ t ∈ earlier, t.isContentOn first = false)
    (hfirst : ∀ t ∈ ofFirst, t.isContentOn first) (hnonempty : ofFirst ≠ [])
    (hgap : ∀ t ∈ gap, t.kind.isStructural) (hnext : next.isContentOn second)
    (hne : second ≠ first) :
    tokensBetween first second (earlier ++ (ofFirst ++ (gap ++ next :: later))) = gap := by
  have hstructural : ∀ {number : Nat}, ∀ t ∈ gap, t.isContentOn number = false :=
    fun t ht => not_isContentOn_of_structural (hgap t ht)
  obtain ⟨token, others, rfl⟩ := List.exists_cons_of_ne_nil hnonempty
  obtain ⟨htoken, -⟩ := List.forall_mem_cons.mp hfirst
  have hbehind : (gap ++ next :: later).dropWhile (·.isContentOn first)
      = gap ++ next :: later := by
    rcases gap with - | ⟨g, gap⟩
    · exact List.dropWhile_cons_of_neg (by simp [not_isContentOn_of_ne hnext hne])
    · exact List.dropWhile_cons_of_neg (by simp [hstructural g (.head _)])
  rw [tokensBetween, List.dropWhile_append_of_pos (by simpa using hearlier), List.cons_append,
    List.dropWhile_cons_of_neg (by simp [htoken]), ← List.cons_append,
    List.dropWhile_append_of_pos (by simpa using hfirst), hbehind,
    List.takeWhile_append_of_pos (by simpa using hstructural),
    List.takeWhile_cons_of_neg (by simp [hnext]), List.append_nil]

/-- The level that is open at a line is no wider than the line. -/
theorem headD_levelsBehind_le (hline : ¬ IsBlankLine line) (before : List (List Char)) :
    (levelsBehind (before ++ [line])).headD 0 ≤ margin line := by
  rcases before with - | ⟨first, before⟩
  · exact Nat.zero_le _
  · rw [levelsBehind, List.cons_append, List.tail_cons, settleLines, List.foldl_append,
      List.foldl_cons, List.foldl_nil, if_neg hline]
    exact BodyLine.headD_settle_le _ _

end Lines

/-- **Between two lines of one width there is a line break, and nothing else, exactly when the level
    that is open at the first one is that width.** -/
theorem siblings_iff {source : String} {colons : Bool} {before blanks after : List (List Char)}
    {first second : List Char}
    (hlines : Text.lines (Text.normalizeNewlines source.toList)
      = before ++ first :: (blanks ++ second :: after))
    (hspaces : ∀ line ∈ Text.lines (Text.normalizeNewlines source.toList), InSpaces line)
    (hlists : (ofSource source colons).HasShortLists)
    (hends : (ofSource source colons).drain.2.1 = none)
    (hfirst : ¬ IsBlankLine first) (hblanks : ∀ blank ∈ blanks, IsBlankLine blank)
    (hsecond : ¬ IsBlankLine second) (hsame : margin first = margin second) :
    (∃ t ∈ (ofSource source colons).drain.1, t.isContentOn (before.length + 1))
      ∧ (∃ t ∈ (ofSource source colons).drain.1, t.isContentOn (before.length + blanks.length + 2))
      ∧ ((tokensBetween (before.length + 1) (before.length + blanks.length + 2)
          (ofSource source colons).drain.1).map Token.kind = [.newline]
        ↔ (levelsBehind (before ++ [first])).headD 0 = margin first) := by
  have hflows : (ofSource source colons).Flows := ⟨untouched_ofSource source colons, hends, hlists⟩
  have hlegible : Legible second := by
    obtain ⟨top, others, hsplit, -, hone⟩ := exists_lines (Text.normalizeNewlines source.toList)
    have hmem : second ∈ Text.lines (Text.normalizeNewlines source.toList) := by
      rw [hlines]
      simp
    exact ⟨hspaces second hmem, hone second (hsplit ▸ hmem)⟩
  -- up to the first line, over it, and over the line break to the second
  obtain ⟨rest, earlier, atFirst, hpasses, hearlier, hrest, hat, hwaiting⟩ :=
    reaches_ofSource hlines hspaces hflows hfirst
  have hflowsFirst := hpasses.flows hflows
  obtain ⟨ofFirst, atEnd, hpasses', hofFirst, hend, hwaitingEnd, hnonempty⟩ :=
    hat.reads_line _ (Nat.lt_succ_self _) hflowsFirst (by simp [hwaiting])
  have hflowsEnd := hpasses'.flows hflowsFirst
  obtain ⟨gap, atSecond, hgap, hkind, hne, hon, -, hplaced⟩ :=
    hend.enters hwaitingEnd hblanks hlegible.spaces hlegible.oneLine hsecond
  obtain ⟨hnone, hgapKind⟩ := hplaced (hsame ▸ headD_levelsBehind_le hfirst before)
  have hflowsSecond := hflowsEnd.next hgap hne
  obtain ⟨next, last, hnext⟩ := hflowsSecond.exists_next
  obtain ⟨hcontent, -⟩ := hon.next hflowsSecond hnone hsecond hnext
  have hnumber : before.length + 1 + blanks.length + 1 = before.length + blanks.length + 2 := by
    omega
  rw [hnumber] at hcontent
  have hdrain : (ofSource source colons).drain.1
      = earlier ++ (ofFirst ++ ([gap] ++ next :: last.drain.1)) := by
    rw [hpasses.drain hflows.untouched, hpasses'.drain hflowsFirst.untouched,
      drain_of_next hflowsEnd.untouched hgap hne,
      drain_of_next hflowsSecond.untouched hnext (ne_eos_of_isContentOn hcontent)]
    rfl
  obtain ⟨token, others, hofFirst'⟩ := List.exists_cons_of_ne_nil (hnonempty hrest)
  rw [hdrain]
  refine ⟨⟨token, by simp [hofFirst'], hofFirst token (hofFirst' ▸ .head _)⟩,
    ⟨next, by simp, hcontent⟩, ?_⟩
  rw [tokensBetween_eq hearlier hofFirst (hnonempty hrest) (by simpa using hkind) hcontent
    (by omega), List.map_singleton, hgapKind, ← hsame]
  split
  · next hlevel => exact iff_of_true rfl hlevel
  · next hlevel => exact iff_of_false nofun hlevel

/-- Two items of a list, with a blank line between. -/
def listItems : String := "ul\n  li(a) x\n \n  li y\np"

/-- The level of the first item is open there, so a line break alone stands between the two. -/
theorem siblings_listItems :
    (ofSource listItems).HasShortLists ∧ (ofSource listItems).drain.2.1 = none
      ∧ (∃ t ∈ (ofSource listItems).drain.1, t.isContentOn 2)
      ∧ (∃ t ∈ (ofSource listItems).drain.1, t.isContentOn 4)
      ∧ (levelsBehind ["ul".toList, "  li(a) x".toList]).headD 0 = margin "  li(a) x".toList
      ∧ (tokensBetween 2 4 (ofSource listItems).drain.1).map Token.kind = [.newline] := by
  have hlines : Text.lines (Text.normalizeNewlines listItems.toList)
      = ["ul".toList] ++ "  li(a) x".toList
        :: ([" ".toList] ++ "  li y".toList :: ["p".toList]) := by decide
  have hspaces : ∀ line ∈ Text.lines (Text.normalizeNewlines listItems.toList), InSpaces line := by
    decide
  have hlists : (ofSource listItems).HasShortLists := hasShortLists_of_tails (by decide)
  have hends : (ofSource listItems).drain.2.1 = none := by decide +kernel
  obtain ⟨hfirst, hsecond, hbetween⟩ := siblings_iff hlines hspaces hlists hends (by decide)
    (by decide) (by decide) (by decide)
  have hlevel : (levelsBehind ["ul".toList, "  li(a) x".toList]).headD 0
      = margin "  li(a) x".toList := by decide
  exact ⟨hlists, hends, hfirst, hsecond, hlevel, hbetween.mpr hlevel⟩

/-- A line that goes back to a width that no level has: the next line of that width is below it. -/
theorem siblings_unopened :
    (ofSource "a\n    b\n  c\n  d").HasShortLists
      ∧ (ofSource "a\n    b\n  c\n  d").drain.2.1 = none
      ∧ (tokensBetween 3 4 (ofSource "a\n    b\n  c\n  d").drain.1).map Token.lexeme
        = [.indent 2] :=
  ⟨hasShortLists_of_tails (by decide), by decide +kernel, by decide +kernel⟩

end Lexer

end Stencil
