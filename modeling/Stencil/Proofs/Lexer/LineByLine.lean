import Stencil.Proofs.Lexer.Gaps

/-! # Line by line — what stands on a line is read as if it stood alone

    A lexer whose text goes up to the end of a line does not need what stands
    behind it: it gives the same tokens with any tail (`Carries`).  What it says of
    a line depends on the text and on how the line is read, and on nothing that the
    lines before have left: no open level, no settled style and no line number
    (`contentOf`, `carries_content`).  The start of a line settles the levels and
    the style, and only that (`carries_break`, `next_mixed`).

    So lines that go on with one indentation character are read one by one
    (`carries_lines`), and what a source says is what its lines say, each of them
    as a source of its own (`lexemes_lineByLine`). -/

namespace Stencil

open Text

namespace Text

variable {line : List Char}

/-- The indentation of a line: every space and tab at its front. -/
def indentation (line : List Char) : List Char := line.takeWhile isIndentation

theorem indentation_append_content (line : List Char) : indentation line ++ content line = line :=
  List.takeWhile_append_dropWhile

theorem isIndentation_of_mem_indentation {c : Char} (h : c ∈ indentation line) :
    isIndentation c = true :=
  List.mem_takeWhile_imp h

theorem not_mem_content {c : Char} (h : c ∉ line) : c ∉ content line :=
  fun hmem => h ((List.dropWhile_sublist _).mem hmem)

/-- What stands on a line begins behind its indentation. -/
theorem begins_content (hone : '\n' ∉ line) (hline : content line ≠ []) :
    Begins (content line) := by
  obtain ⟨c, rest, hcontent⟩ := List.exists_cons_of_ne_nil hline
  refine ⟨c, rest, hcontent, ?_, ?_⟩
  · exact stops_dropWhile isIndentation line c (congrArg List.head? hcontent)
  · rintro rfl
    exact not_mem_content hone (hcontent ▸ .head _)

end Text

/-! ## Margins -/

/-- Margins that are made of one character alone. -/
def InOneStyle (margins : List (List Char)) : Prop :=
  ∃ style : IndentStyle, ∀ margin ∈ margins, ∀ c ∈ margin, c = style.char

/-- The settled style is that of the margins so far; none is settled before the first margin that
    is not empty. -/
def Settles (margins : List (List Char)) : Option IndentLock → Prop
  | none => ∀ margin ∈ margins, margin = []
  | some settled => (∃ margin ∈ margins, margin ≠ [])
      ∧ ∀ margin ∈ margins, ∀ c ∈ margin, c = settled.style.char

theorem InOneStyle.of_append {margins others : List (List Char)}
    (h : InOneStyle (margins ++ others)) : InOneStyle margins := by
  obtain ⟨style, hstyle⟩ := h
  exact ⟨style, fun margin hmargin => hstyle margin (List.mem_append_left _ hmargin)⟩

/-- What is settled tells whether a line goes on in the style of the lines before. -/
theorem Settles.inOneStyle_iff {margins : List (List Char)} {lock : Option IndentLock}
    (h : Settles margins lock) (line : List Char) :
    InOneStyle (margins ++ [indentation line])
      ↔ ∀ c ∈ indentation line, c = (Lexer.styleFor lock line).char := by
  cases lock with
  | some settled =>
      obtain ⟨⟨margin, hmargin, hne⟩, hsettled⟩ := h
      constructor
      · rintro ⟨style, hstyle⟩ c hc
        obtain ⟨d, more, rfl⟩ := List.exists_cons_of_ne_nil hne
        have hmem : (d :: more) ∈ margins ++ [indentation line] := List.mem_append_left _ hmargin
        have hsame : style.char = settled.style.char :=
          (hstyle _ hmem d (.head _)).symm.trans (hsettled _ hmargin d (.head _))
        exact (hstyle _ (by simp) c hc).trans hsame
      · intro hline
        refine ⟨settled.style, fun margin hmem => ?_⟩
        rcases List.mem_append.mp hmem with hmem | hmem
        · exact hsettled margin hmem
        · exact List.mem_singleton.mp hmem ▸ hline
  | none =>
      have hempty : ∀ margin ∈ margins, ∀ c ∈ margin, ∀ style : IndentStyle, c = style.char := by
        intro margin hmargin c hc
        rw [h margin hmargin] at hc
        exact nomatch hc
      constructor
      · rintro ⟨style, hstyle⟩ c hc
        have hall := hstyle (indentation line) (by simp)
        -- the first character of the line tells what it is measured in
        obtain ⟨d, more, hline⟩ := List.exists_cons_of_ne_nil (List.ne_nil_of_mem hc)
        have hd : d = style.char := hall d (hline ▸ .head _)
        have hhead : line.head? = some style.char := by
          rw [← indentation_append_content line, hline, hd]
          rfl
        have hmeasured : Lexer.styleFor none line = style := by
          rw [Lexer.styleFor, hhead]
          cases style <;> rfl
        rw [hmeasured]
        exact hall c hc
      · intro hline
        refine ⟨Lexer.styleFor none line, fun margin hmem => ?_⟩
        rcases List.mem_append.mp hmem with hmem | hmem
        · exact fun c hc => hempty margin hmem c hc _
        · exact List.mem_singleton.mp hmem ▸ hline

/-- What is settled behind a line that goes on in the style of the lines before. -/
theorem Settles.line {margins : List (List Char)} {lock : Option IndentLock}
    (h : Settles margins lock) {line : List Char} {style : IndentStyle}
    (hstyle : Lexer.styleFor lock line = style) (hline : ∀ c ∈ indentation line, c = style.char)
    (number : Nat) :
    Settles (margins ++ [indentation line])
      (lock <|> if (indentation line).length = 0 then none else some ⟨style, number⟩) := by
  cases lock with
  | some settled =>
      obtain rfl : settled.style = style := hstyle
      obtain ⟨⟨margin, hmargin, hne⟩, hsettled⟩ := h
      refine ⟨⟨margin, List.mem_append_left _ hmargin, hne⟩, fun margin hmem => ?_⟩
      rcases List.mem_append.mp hmem with hmem | hmem
      · exact hsettled margin hmem
      · exact List.mem_singleton.mp hmem ▸ hline
  | none =>
      by_cases hlength : (indentation line).length = 0
      · rw [if_pos hlength]
        intro margin hmem
        rcases List.mem_append.mp hmem with hmem | hmem
        · exact h margin hmem
        · rw [List.mem_singleton.mp hmem]
          exact List.length_eq_zero_iff.mp hlength
      · rw [if_neg hlength]
        have hne : indentation line ≠ [] := fun hnil => hlength (List.length_eq_zero_iff.mpr hnil)
        refine ⟨⟨indentation line, by simp, hne⟩, fun margin hmem => ?_⟩
        rcases List.mem_append.mp hmem with hmem | hmem
        · rw [h margin hmem]
          exact nofun
        · exact List.mem_singleton.mp hmem ▸ hline

namespace Lexer

variable {lexer middle last after : Lexer} {token : Token} {tokens more : List Token}
  {mode : Mode} {colons : Bool} {text line tail : List Char}

/-! ## Tails -/

/-- A lexer gives tokens up to another one, whatever stands behind its text. -/
def Carries (lexer : Lexer) (tokens : List Token) (last : Lexer) : Prop :=
  ∀ tail, EndsLine tail → (lexer.withTail tail).Passes tokens (last.withTail tail)

theorem withTail_nil (lexer : Lexer) : lexer.withTail [] = lexer := by
  rw [withTail, List.append_nil]

theorem withTail_withTail (lexer : Lexer) (tail more : List Char) :
    (lexer.withTail tail).withTail more = lexer.withTail (tail ++ more) := by
  simp only [withTail, List.append_assoc]

theorem carries_refl (lexer : Lexer) : lexer.Carries [] lexer := fun _ _ => ⟨.done _, nofun⟩

theorem Carries.passes (h : lexer.Carries tokens last) : lexer.Passes tokens last := by
  have hpasses := h [] nofun
  rwa [withTail_nil, withTail_nil] at hpasses

theorem Carries.append (h : lexer.Carries tokens middle) (hmore : middle.Carries more last) :
    lexer.Carries (tokens ++ more) last :=
  fun tail htail => (h tail htail).append (hmore tail htail)

/-- More text behind the line stands there at the end, too. -/
theorem Carries.withTail (h : lexer.Carries tokens last) (htail : EndsLine tail) :
    (lexer.withTail tail).Carries tokens (last.withTail tail) := by
  intro more hmore
  rw [withTail_withTail, withTail_withTail]
  refine h _ fun c hc => ?_
  cases tail with
  | nil => exact hmore c hc
  | cons d tail => exact htail c hc

/-- A step on a line that is not blank does not need what stands behind it. -/
theorem carries_of_next (hinput : ¬ BlankLines lexer.input)
    (hnext : lexer.next = (.ok token, after)) (hne : token.kind ≠ .eos) :
    lexer.Carries [token] after := by
  intro tail htail
  have hclosed : ¬ lexer.next.Unclosed := by
    rw [hnext]
    rintro ⟨fault, hfault, -⟩
    exact nomatch hfault
  have hstep := (next_withTail htail fun _ => hinput).resolve_left hclosed
  rw [hnext] at hstep
  exact ⟨.take hstep (.done _), List.forall_mem_singleton.mpr hne⟩

/-- Tokens that wait come out first. -/
theorem carries_pending {pending : List Token} (h : lexer.pending = pending)
    (hne : ∀ t ∈ pending, t.kind ≠ .eos) :
    lexer.Carries pending { lexer with pending := [] } := by
  intro tail _
  have hpending : (lexer.withTail tail).pending = pending ++ [] := by
    rw [List.append_nil]
    exact h
  exact ⟨reads_pending hpending, hne⟩

/-! ## What stands on a line -/

/-- A lexer with a text and nothing else. -/
def alone (mode : Mode) (colons : Bool) (text : List Char) : Lexer :=
  { input := text, mode, colons }

/-- What a lexer says, up to the end of the stream. -/
def said (lexer : Lexer) : List Lexeme :=
  (lexer.drain.1.filter (·.kind != .eos)).map Token.lexeme

/-- What is said of a text that stands alone. -/
def contentOf (mode : Mode) (colons : Bool) (text : List Char) : List Lexeme :=
  (alone mode colons text).said

/-- A lexer that has a text of a line before it, and no token that waits. -/
structure AtText (mode : Mode) (colons : Bool) (text : List Char) (lexer : Lexer) : Prop where
  input : lexer.input = text
  mode : lexer.mode = mode
  colons : lexer.colons = colons
  pending : lexer.pending = []

/-- Lexemes as tokens of a line. -/
def onLine (line : Nat) (lexemes : List Lexeme) : List Token := lexemes.map (Token.mk line)

theorem atText_alone (mode : Mode) (colons : Bool) (text : List Char) :
    AtText mode colons text (alone mode colons text) := ⟨rfl, rfl, rfl, rfl⟩

theorem untouched_alone (mode : Mode) (colons : Bool) (text : List Char) :
    (alone mode colons text).Untouched := ⟨rfl, rfl, nofun⟩

theorem not_blankLines {c : Char} (hc : c ≠ '\n') (text : List Char) :
    ¬ BlankLines (c :: text) := by
  intro h
  cases h
  exact hc rfl

theorem AtText.next_eq {c : Char} (h : AtText mode colons (c :: text) lexer) (hc : c ≠ '\n') :
    lexer.next = lexer.scanLine := by
  refine next_eq_scanLine h.pending ?_
  rw [h.input]
  simp [afterBlankLine?, hc]

theorem AtText.next_raw {c : Char} (h : AtText .raw colons (c :: text) lexer) (hc : c ≠ '\n') :
    lexer.next = lexer.readRawLine := by
  rw [h.next_eq hc, scanLine, h.input, h.mode]
  simp

theorem AtText.next_markup {c : Char} (h : AtText .markup colons (c :: text) lexer)
    (hc : c ≠ '\n') :
    lexer.next = if c == '(' then lexer.readAttributes text else lexer.readForm := by
  rw [h.next_eq hc, scanLine, h.input, h.mode]
  simp

/-- **One step on a line**, the same for every lexer that has the text before it. -/
theorem exists_next (mode : Mode) (colons : Bool) (hne : text ≠ []) (hone : '\n' ∉ text)
    (hlist : mode = .markup → ∀ inside, text = '(' :: inside → group? 0 inside ≠ none) :
    ∃ lexeme rest, ∃ colon : Bool, rest <:+ text ∧ rest.length < text.length
      ∧ lexeme.kind.isStructural = false
      ∧ ∀ lexer : Lexer, AtText mode colons text lexer →
        lexer.next = (.ok ⟨lexer.line, lexeme⟩, { lexer with
          input := rest, pending := if colon then [lexer.token .colon] else [] }) := by
  obtain ⟨c, behind, rfl⟩ := List.exists_cons_of_ne_nil hne
  have hc : c ≠ '\n' := fun h => hone (h ▸ .head _)
  have hnone : ∀ {lexer : Lexer}, AtText mode colons (c :: behind) lexer → ∀ input line,
      { lexer with input, line } = { lexer with input, line, pending := [] } :=
    fun h _ _ => by rw [← h.pending]
  cases mode with
  | raw =>
      -- the whole line is one text
      refine ⟨.bare .text (String.ofList (c :: behind)), [], false, List.nil_suffix, by simp, rfl,
        fun lexer h => ?_⟩
      have hsplit : Text.splitLine lexer.input = (c :: behind, []) := by
        have hline : Text.splitLine ((c :: behind) ++ []) = (c :: behind, []) :=
          splitLine_line (fun d hd => ne_of_mem_of_not_mem hd hone) (fun _ hd => nomatch hd)
        rw [List.append_nil] at hline
        rw [h.input, hline]
      rw [h.next_raw hc]
      simp only [readRawLine, hsplit]
      exact congrArg (Prod.mk _) (hnone h [] lexer.line)
  | markup =>
      by_cases hopens : c = '('
      · subst hopens
        obtain ⟨⟨body, rest⟩, hgroup⟩ := Option.ne_none_iff_exists'.mp (hlist rfl behind rfl)
        have hbehind := (group?_eq_some_iff.mp hgroup).2
        -- the list ends on the line, so no line is passed
        have hcount : Text.countNewlines body = 0 := by
          refine List.count_eq_zero.mpr fun hmem => hone ?_
          rw [hbehind]
          exact .tail _ (List.mem_append_left _ hmem)
        have hkept : rest <:+ '(' :: behind := by
          rw [hbehind]
          exact ((List.suffix_cons _ _).trans (List.suffix_append _ _)).trans (List.suffix_cons _ _)
        obtain ⟨slash, hslash, -⟩ := Form.closed_keepsLine rest
        have hclosed := List.IsSuffix.trans ⟨slash, hslash.symm⟩ hkept
        refine ⟨.attrs (Attribute.parseList body colons) (rest.head? == some '/'), _, false,
          hclosed, ?_, rfl, fun lexer h => ?_⟩
        · have hshorter := group?_length hgroup
          have hle := Form.closed_length_le rest
          rw [List.length_cons]
          omega
        · rw [h.next_markup hc, ← h.colons]
          simp only [BEq.rfl, if_true, readAttributes, hgroup, hcount, Nat.add_zero]
          exact congrArg (Prod.mk _) (hnone h _ lexer.line)
      · obtain ⟨found, hfound⟩ := Form.first?_line hc behind
        obtain ⟨taken, htaken, -⟩ := Form.first?_keepsLine hfound
        refine ⟨found.lexeme, found.rest, found.colon, ⟨taken, htaken.symm⟩,
          Form.first?_shortens hfound, Form.first?_kind hfound, fun lexer h => ?_⟩
        rw [h.next_markup hc]
        simp only [beq_eq_false_iff_ne.mpr hopens, readForm, h.input, hfound, h.pending,
          List.nil_append]
        rfl

theorem ne_eos_of_content {kind : TokenKind} (h : kind.isStructural = false) : kind ≠ .eos := by
  rintro rfl
  exact nomatch h

theorem content_onLine {line : Nat} {lexemes : List Lexeme}
    (h : ∀ lexeme ∈ lexemes, lexeme.kind.isStructural = false) :
    ∀ t ∈ onLine line lexemes, t.kind.isStructural = false :=
  List.forall_mem_map.mpr h

/-- What is taken of a line in one step, with the token that waits behind it. -/
theorem exists_step (mode : Mode) (colons : Bool) (hne : text ≠ []) (hone : '\n' ∉ text)
    (hlist : mode = .markup → ∀ inside, text = '(' :: inside → group? 0 inside ≠ none) :
    ∃ lexemes rest, rest <:+ text ∧ rest.length < text.length
      ∧ (∀ lexeme ∈ lexemes, lexeme.kind.isStructural = false)
      ∧ ∀ lexer : Lexer, AtText mode colons text lexer →
        lexer.Carries (onLine lexer.line lexemes) { lexer with input := rest } := by
  obtain ⟨lexeme, rest, colon, hsuffix, hless, hkind, hnext⟩ :=
    exists_next mode colons hne hone hlist
  have hcontent : ∀ other ∈ lexeme :: (if colon then [.bare .colon ""] else []),
      other.kind.isStructural = false := by
    refine List.forall_mem_cons.mpr ⟨hkind, fun other hother => ?_⟩
    cases colon with
    | false => exact nomatch hother
    | true => exact List.mem_singleton.mp hother ▸ rfl
  refine ⟨_, rest, hsuffix, hless, hcontent, fun lexer h => ?_⟩
  have hne_eos : ∀ t ∈ onLine lexer.line (lexeme :: if colon then [.bare .colon ""] else []),
      t.kind ≠ .eos := fun t ht => ne_eos_of_content (content_onLine hcontent t ht)
  obtain ⟨hfirst, hothers⟩ := List.forall_mem_cons.mp hne_eos
  have hblank : ¬ BlankLines lexer.input := by
    obtain ⟨c, behind, rfl⟩ := List.exists_cons_of_ne_nil hne
    rw [h.input]
    exact not_blankLines (fun hc => hone (hc ▸ .head _)) behind
  have hwaiting : (if colon then [lexer.token .colon] else [])
      = onLine lexer.line (if colon then [.bare .colon ""] else []) := by
    cases colon <;> rfl
  have hlast : { lexer with input := rest } = { lexer with input := rest, pending := [] } := by
    rw [← h.pending]
  rw [hlast]
  exact (carries_of_next hblank (hwaiting ▸ hnext lexer h) hfirst).append
    (carries_pending rfl hothers)

/-- At the end of the text every open level is closed, and the stream ends. -/
theorem drain_end (h : lexer.Untouched) (hinput : lexer.input = [])
    (hpending : lexer.pending = []) :
    lexer.drain = (List.replicate lexer.levels.length (lexer.token .outdent) ++ [lexer.token .eos],
      none, { lexer with levels := [] }) := by
  induction hlevels : lexer.levels generalizing lexer with
  | nil =>
      have hnext : lexer.next = (.ok (lexer.token .eos), lexer) :=
        Finished.next ⟨hinput, hlevels, hpending⟩
      rw [drain_of_eos h hnext rfl]
      exact congrArg (fun last => ([lexer.token .eos], none, last)) (by rw [← hlevels])
  | cons innermost levels ih =>
      have hnext := next_close hpending hinput hlevels
      rw [drain_of_next h hnext nofun, ih (h.next hnext) hinput hpending rfl]
      rfl

/-- A list that starts in a text that is read to its end is closed. -/
theorem closed_of_ends (hends : (alone mode colons text).drain.2.1 = none) (hmode : mode = .markup)
    (inside : List Char) (htext : text = '(' :: inside) : group? 0 inside ≠ none := by
  subst hmode htext
  intro hgroup
  have hnext : (alone .markup colons ('(' :: inside)).next
      = fail (alone .markup colons ('(' :: inside)) .unterminatedAttributes := by
    rw [(atText_alone .markup colons ('(' :: inside)).next_markup (by decide)]
    simp only [BEq.rfl, if_true, readAttributes, hgroup]
  rw [drain_of_error (untouched_alone ..) hnext] at hends
  exact nomatch hends

/-- **What stands on a line** is read whatever stands before it and behind it, if it is read to its
    end when it stands alone. -/
theorem carries_content (hone : '\n' ∉ text) (hends : (alone mode colons text).drain.2.1 = none) :
    (∀ lexeme ∈ contentOf mode colons text, lexeme.kind.isStructural = false)
      ∧ ∀ lexer : Lexer, AtText mode colons text lexer →
        lexer.Carries (onLine lexer.line (contentOf mode colons text))
          { lexer with input := [] } := by
  induction hlength : text.length using Nat.strong_induction_on generalizing text with
  | h length ih =>
      by_cases hne : text = []
      · subst hne
        have hnothing : contentOf mode colons [] = [] := by
          rw [contentOf, said, drain_end (untouched_alone ..) rfl rfl]
          rfl
        rw [hnothing]
        refine ⟨nofun, fun lexer h => ?_⟩
        rw [show { lexer with input := [] } = lexer by rw [← h.input]]
        exact carries_refl lexer
      · obtain ⟨lexemes, rest, hsuffix, hless, hcontent, hstep⟩ :=
          exists_step mode colons hne hone (closed_of_ends hends)
        have hdrain := (hstep _ (atText_alone mode colons text)).passes.drain (untouched_alone ..)
        have hrest : (alone mode colons rest).drain.2.1 = none := by
          rw [hdrain] at hends
          exact hends
        obtain ⟨hcontent', hread⟩ :=
          ih _ (hlength ▸ hless) (fun hmem => hone (hsuffix.mem hmem)) hrest rfl
        have hsplit : contentOf mode colons text = lexemes ++ contentOf mode colons rest := by
          have hkept : (onLine 1 lexemes).filter (·.kind != .eos) = onLine 1 lexemes :=
            List.filter_eq_self.mpr fun t ht =>
              bne_iff_ne.mpr (ne_eos_of_content (content_onLine hcontent t ht))
          have hlexemes : (onLine 1 lexemes).map Token.lexeme = lexemes := by
            rw [onLine, List.map_map]
            exact List.map_id _
          rw [contentOf, said, hdrain, List.filter_append, List.map_append]
          exact congrArg₂ _ ((congrArg _ hkept).trans hlexemes) rfl
        rw [hsplit]
        refine ⟨fun lexeme hmem => (List.mem_append.mp hmem).elim (hcontent _) (hcontent' _), ?_⟩
        intro lexer h
        rw [onLine, List.map_append]
        exact (hstep lexer h).append (hread _ ⟨rfl, h.mode, h.colons, h.pending⟩)

/-- A text without a list is read to its end. -/
theorem ends_alone (hone : '\n' ∉ text) (hlists : '(' ∉ text) :
    (alone mode colons text).drain.2.1 = none := by
  induction hlength : text.length using Nat.strong_induction_on generalizing text with
  | h length ih =>
      by_cases hne : text = []
      · rw [hne, drain_end (untouched_alone ..) rfl rfl]
      · obtain ⟨lexemes, rest, hsuffix, hless, -, hstep⟩ :=
          exists_step mode colons hne hone fun _ inside htext =>
            absurd (htext ▸ List.mem_cons_self) hlists
        rw [(hstep _ (atText_alone mode colons text)).passes.drain (untouched_alone ..)]
        exact ih _ (hlength ▸ hless) (fun hmem => hone (hsuffix.mem hmem))
          (fun hmem => hlists (hsuffix.mem hmem)) rfl

/-! ## The start of a line -/

/-- A lexer at the end of a line, with one line more behind it. -/
structure AtBreak (line : List Char) (lexer : Lexer) : Prop where
  input : lexer.input = '\n' :: line
  pending : lexer.pending = []
  oneLine : '\n' ∉ line
  filled : content line ≠ []

/-- The indentation of a line goes on in the style that it is measured in. -/
def GoesOn (lexer : Lexer) (line : List Char) : Prop :=
  ∀ c ∈ indentation line, c = (styleFor lexer.lock line).char

/-- What is settled behind the start of a line that goes on in its style. -/
def lockAt (lexer : Lexer) (line : List Char) : Option IndentLock :=
  lexer.lock <|> if (indentation line).length = 0 then none
    else some ⟨styleFor lexer.lock line, lexer.line + 1⟩

theorem AtBreak.next_eq (h : AtBreak line lexer) : lexer.next = lexer.readLineBreak line := by
  have hblank : afterBlankLine? lexer.input = none := by
    rw [h.input, afterBlankLine?]
    refine if_neg fun hhead => h.oneLine ?_
    exact (List.dropWhile_sublist _).mem (List.mem_of_head? (beq_iff_eq.mp hhead))
  rw [next_eq_scanLine h.pending hblank]
  unfold scanLine
  rw [h.input]
  rfl

theorem AtBreak.not_blank (h : AtBreak line lexer) : ¬ BlankLines lexer.input := by
  rw [h.input]
  generalize htext : '\n' :: line = text
  rintro (- | @⟨blank, rest, hblank, hrest⟩)
  · exact nomatch htext
  · obtain rfl : line = blank ++ rest := (List.cons.inj htext).2
    -- no line feed is in the line, so no blank line follows the first one
    obtain rfl : rest = [] := by
      cases hrest with
      | nil => rfl
      | line _ _ => exact absurd (List.mem_append_right _ (.head _)) h.oneLine
    refine h.filled ?_
    rw [List.append_nil, eq_replicate_of_isBlankLine hblank]
    exact List.dropWhile_eq_nil_iff.mpr fun c hc => isIndentation_of_mem_spaces hc

theorem takeWhile_indentation {p : Char → Bool} (hp : ∀ c, p c = true → isIndentation c = true)
    (hline : ∀ c ∈ indentation line, p c = true) : line.takeWhile p = indentation line := by
  have hstops : Stops p (content line) := by
    intro c hc
    have hnot := stops_dropWhile isIndentation line c hc
    exact Bool.eq_false_iff.mpr fun htrue => nomatch hnot.symm.trans (hp c htrue)
  have hrun := takeWhile_line hline hstops
  rwa [indentation_append_content] at hrun

/-- **A line that goes on in its style** settles the levels and the style. -/
theorem AtBreak.carries (h : AtBreak line lexer) (hgoes : lexer.GoesOn line) : ∃ tokens last,
    lexer.Carries tokens last ∧ (∀ t ∈ tokens, t.kind.isStructural)
      ∧ last = { lexer with
          input := content line, line := lexer.line + 1, lock := lexer.lockAt line,
          levels := BodyLine.settle lexer.levels (indentation line).length } := by
  have hwidth : widthIn (styleFor lexer.lock line) line = (indentation line).length := by
    refine congrArg List.length (takeWhile_indentation (fun c hc => ?_) fun c hc => ?_)
    · rw [beq_iff_eq.mp hc]
      exact IndentStyle.isIndentation_char _
    · exact beq_iff_eq.mpr (hgoes c hc)
  have hentered : lexer.enterLine line = { lexer with
      input := content line, line := lexer.line + 1, lock := lexer.lockAt line } := by
    have hdrop : (indentation line ++ content line).drop (indentation line).length
        = content line := List.drop_left
    rw [indentation_append_content] at hdrop
    rw [enterLine]
    simp only [hwidth, hdrop]
    rfl
  obtain ⟨c, behind, hcontent, hindentation, hc⟩ := begins_content h.oneLine h.filled
  have hplaced : lexer.next = (lexer.enterLine line).placeLine (indentation line).length := by
    have hnot : (c == ' ' || c == '\t') = false := hindentation
    rw [h.next_eq]
    unfold readLineBreak
    simp [hwidth, hentered, hcontent, hnot, hc]
  obtain ⟨token, after, hplace, hafter, -, hkind, hne, ⟨count, houtdents⟩, -⟩ :=
    placeLine_settle (lexer.enterLine line) (indentation line).length
  have hpending : ∀ t ∈ after.pending, t.kind = .outdent := by
    intro t ht
    rw [houtdents, hentered, h.pending, List.nil_append] at ht
    rw [List.eq_of_mem_replicate ht]
    rfl
  have hwaiting : after.Carries after.pending { after with pending := [] } := by
    refine carries_pending rfl fun t ht heos => ?_
    cases (hpending t ht).symm.trans heos
  refine ⟨token :: after.pending, { after with pending := [] },
    (carries_of_next h.not_blank (hplaced.trans hplace) hne).append hwaiting, ?_, ?_⟩
  · refine List.forall_mem_cons.mpr ⟨hkind, fun t ht => ?_⟩
    rw [hpending t ht]
    rfl
  · rw [hafter, hentered, ← h.pending]

/-- **A line that does not go on in its style** is refused. -/
theorem AtBreak.next_mixed (h : AtBreak line lexer) (hgoes : ¬ lexer.GoesOn line) :
    ∃ after, lexer.next = (.error ⟨.mixedIndentation, lexer.line + 1⟩, after) := by
  have hsplit : List.replicate (widthIn (styleFor lexer.lock line) line)
      (styleFor lexer.lock line).char ++ (lexer.enterLine line).input = line :=
    replicate_append_drop_widthIn (styleFor lexer.lock line) line
  have hleft : ¬ Stops isIndentation (lexer.enterLine line).input := by
    intro hstops
    refine hgoes fun c hc => ?_
    have hrun : ∀ d ∈ List.replicate (widthIn (styleFor lexer.lock line) line)
        (styleFor lexer.lock line).char, isIndentation d = true := by
      intro d hd
      rw [List.eq_of_mem_replicate hd]
      exact IndentStyle.isIndentation_char _
    have hall := takeWhile_line hrun hstops
    rw [hsplit] at hall
    have hmem : c ∈ line.takeWhile isIndentation := hc
    rw [hall] at hmem
    exact List.eq_of_mem_replicate hmem
  obtain ⟨c, hhead, hc⟩ : ∃ c ∈ (lexer.enterLine line).input.head?, isIndentation c = true := by
    simpa [Stops] using hleft
  obtain ⟨rest, hinput⟩ := List.head?_eq_some_iff.mp hhead
  have hrefused : (c == ' ' || c == '\t') = true := hc
  rw [h.next_eq]
  refine ⟨lexer.enterLine line, ?_⟩
  unfold readLineBreak
  simp only [hinput, hrefused, if_true]
  rfl

/-! ## Lines -/

/-- A lexer at the end of a line, with the margins of the lines before it. -/
structure AtLineEnd (mode : Mode) (colons : Bool) (margins : List (List Char)) (lexer : Lexer) :
    Prop where
  atText : AtText mode colons [] lexer
  settles : Settles margins lexer.lock

/-- A line that something stands on, which is read to its end when it stands alone. -/
structure Readable (mode : Mode) (colons : Bool) (line : List Char) : Prop where
  oneLine : '\n' ∉ line
  filled : content line ≠ []
  ends : (alone mode colons (content line)).drain.2.1 = none

variable {margins : List (List Char)} {lines : List (List Char)}

theorem AtLineEnd.atBreak (h : AtLineEnd mode colons margins lexer)
    (hline : Readable mode colons line) : AtBreak line (lexer.withTail ('\n' :: line)) where
  input := by rw [withTail, h.atText.input, List.nil_append]
  pending := h.atText.pending
  oneLine := hline.oneLine
  filled := hline.filled

theorem AtLineEnd.goesOn_iff (h : AtLineEnd mode colons margins lexer) (line tail : List Char) :
    (lexer.withTail tail).GoesOn line ↔ InOneStyle (margins ++ [indentation line]) :=
  (h.settles.inOneStyle_iff line).symm

/-- What tokens say that belong to no line break and no level. -/
def contentLexemes (tokens : List Token) : List Lexeme :=
  (tokens.filter (!·.kind.isStructural)).map Token.lexeme

theorem contentLexemes_append (tokens more : List Token) :
    contentLexemes (tokens ++ more) = contentLexemes tokens ++ contentLexemes more := by
  rw [contentLexemes, List.filter_append, List.map_append]
  rfl

theorem contentLexemes_of_structural (h : ∀ t ∈ tokens, t.kind.isStructural) :
    contentLexemes tokens = [] := by
  rw [contentLexemes, List.filter_eq_nil_iff.mpr (fun t ht => by simp [h t ht])]
  rfl

theorem contentLexemes_onLine {number : Nat} {lexemes : List Lexeme}
    (h : ∀ lexeme ∈ lexemes, lexeme.kind.isStructural = false) :
    contentLexemes (onLine number lexemes) = lexemes := by
  have hall : ∀ t ∈ onLine number lexemes, (!t.kind.isStructural) = true :=
    fun t ht => by rw [content_onLine h t ht]; rfl
  rw [contentLexemes, List.filter_eq_self.mpr hall, onLine, List.map_map]
  exact List.map_id _

/-- **One line more** is read when it goes on in the style of the lines before. -/
theorem AtLineEnd.carries_line (h : AtLineEnd mode colons margins lexer)
    (hline : Readable mode colons line) (hstyle : InOneStyle (margins ++ [indentation line])) :
    ∃ tokens last, (lexer.withTail ('\n' :: line)).Carries tokens last
      ∧ AtLineEnd mode colons (margins ++ [indentation line]) last ∧ last.line = lexer.line + 1
      ∧ contentLexemes tokens = contentOf mode colons (content line) := by
  have hgoes := (h.goesOn_iff line ('\n' :: line)).mpr hstyle
  obtain ⟨breaks, entered, hbreaks, hstructural, hentered⟩ := (h.atBreak hline).carries hgoes
  have htext : AtText mode colons (content line) entered := by
    rw [hentered]
    exact ⟨rfl, h.atText.mode, h.atText.colons, h.atText.pending⟩
  obtain ⟨hcontent, hread⟩ := carries_content (not_mem_content hline.oneLine) hline.ends
  refine ⟨_, _, hbreaks.append (hread entered htext),
    ⟨⟨rfl, htext.mode, htext.colons, htext.pending⟩, ?_⟩, ?_, ?_⟩
  · rw [hentered]
    exact h.settles.line rfl hgoes _
  · rw [hentered]
    rfl
  · rw [contentLexemes_append, contentLexemes_of_structural hstructural,
      contentLexemes_onLine hcontent, List.nil_append]

/-- **Lines that are indented in one style** are read one by one. -/
theorem AtLineEnd.carries_lines (h : AtLineEnd mode colons margins lexer)
    (hlines : ∀ line ∈ lines, Readable mode colons line)
    (hstyle : InOneStyle (margins ++ lines.map indentation)) :
    ∃ tokens last, (lexer.withTail (followed lines)).Carries tokens last
      ∧ AtLineEnd mode colons (margins ++ lines.map indentation) last
      ∧ last.line = lexer.line + lines.length
      ∧ contentLexemes tokens
        = lines.flatMap fun line => contentOf mode colons (content line) := by
  induction lines generalizing margins lexer with
  | nil =>
      have hsame : lexer.withTail (followed []) = lexer := withTail_nil lexer
      rw [hsame, List.map_nil, List.append_nil]
      exact ⟨[], lexer, carries_refl lexer, h, rfl, rfl⟩
  | cons line lines ih =>
      have hmargins : margins ++ (line :: lines).map indentation
          = margins ++ [indentation line] ++ lines.map indentation := by
        rw [List.map_cons, List.append_assoc]
        rfl
      rw [hmargins] at hstyle ⊢
      obtain ⟨hline, hothers⟩ := List.forall_mem_cons.mp hlines
      obtain ⟨tokens, middle, hcarries, hmiddle, hnumber, hcontent⟩ :=
        h.carries_line hline hstyle.of_append
      obtain ⟨more, last, hmore, hlast, hnumber', hcontent'⟩ := ih hmiddle hothers hstyle
      have hrest := hcarries.withTail (endsLine_followed lines)
      rw [withTail_withTail] at hrest
      refine ⟨tokens ++ more, last, hrest.append hmore, hlast, ?_, ?_⟩
      · rw [hnumber', hnumber, List.length_cons]
        omega
      · rw [contentLexemes_append, hcontent, hcontent', List.flatMap_cons]

theorem Passes.untouched (h : lexer.Passes tokens last) (huntouched : lexer.Untouched) :
    last.Untouched := by
  obtain ⟨hreads, -⟩ := h
  induction hreads with
  | done lexer => exact huntouched
  | take hnext _ ih => exact ih (huntouched.next hnext)

/-! ## Sources -/

variable {source : String} {first : List Char}

theorem mem_followed {c : Char} (hline : line ∈ lines) (hc : c ∈ line) : c ∈ followed lines := by
  induction lines with
  | nil => exact nomatch hline
  | cons other lines ih =>
      rw [followed, List.mem_cons, List.mem_append]
      rcases List.mem_cons.mp hline with rfl | hothers
      · exact .inr (.inl hc)
      · exact .inr (.inr (ih hothers))

/-- A lexer at the start of a source, by the lines of the source. -/
theorem atStart_eq (hlines : Text.lines (normalizeNewlines source.toList) = first :: lines)
    (mode : Mode) (colons : Bool) :
    atStart source colons mode = (alone mode colons first).withTail (followed lines)
      ∧ ∀ line ∈ first :: lines, '\n' ∉ line
        ∧ ∀ c ∈ line, c ∈ normalizeNewlines source.toList := by
  obtain ⟨_, _, hsplit, htext, hone⟩ := exists_lines (normalizeNewlines source.toList)
  obtain ⟨rfl, rfl⟩ := List.cons.inj (hlines.symm.trans hsplit)
  refine ⟨congrArg (fun input => ({ input, mode, colons } : Lexer)) htext, fun line hmem => ?_⟩
  refine ⟨hone line hmem, fun c hc => ?_⟩
  rw [htext, List.mem_append]
  rcases List.mem_cons.mp hmem with rfl | hothers
  · exact .inl hc
  · exact .inr (mem_followed hothers hc)

/-- A text without a carriage return, as a source. -/
theorem ofSource_eq_alone (hreturn : '\r' ∉ text) (colons : Bool) :
    ofSource (String.ofList text) colons = alone .markup colons text := by
  rw [ofSource, String.toList_ofList, normalizeNewlines_of_not_mem text hreturn]
  rfl

/-- The lines of a source that are indented in one style are read up to the end of the text. -/
theorem carries_source (hfirst : '\n' ∉ first) (hends : (alone mode colons first).drain.2.1 = none)
    (hlines : ∀ line ∈ lines, Readable mode colons line)
    (hstyle : InOneStyle (lines.map indentation)) :
    ∃ tokens last, ((alone mode colons first).withTail (followed lines)).Carries tokens last
      ∧ AtLineEnd mode colons (lines.map indentation) last ∧ last.line = lines.length + 1
      ∧ contentLexemes tokens = contentOf mode colons first
        ++ lines.flatMap fun line => contentOf mode colons (content line) := by
  obtain ⟨hcontent, hread⟩ := carries_content hfirst hends
  have hend : AtLineEnd mode colons [] { alone mode colons first with input := [] } :=
    ⟨⟨rfl, rfl, rfl, rfl⟩, nofun⟩
  obtain ⟨tokens, last, hcarries, hlast, hnumber, hsaid⟩ := hend.carries_lines hlines hstyle
  have hfirstLine := (hread _ (atText_alone ..)).withTail (endsLine_followed lines)
  refine ⟨_, last, hfirstLine.append hcarries, hlast, hnumber.trans (Nat.add_comm _ _), ?_⟩
  rw [contentLexemes_append, contentLexemes_onLine hcontent, hsaid]

/-- **Lexing is line by line**: what the lines of a source say is what each of them says when it
    stands alone. -/
theorem lexemes_lineByLine
    (hlines : Text.lines (normalizeNewlines source.toList) = first :: lines)
    (hfirst : Stops isIndentation first) (hspaces : ∀ line ∈ lines, '\t' ∉ indentation line)
    (hfilled : ∀ line ∈ lines, content line ≠ [])
    (hends : ∀ line ∈ first :: lines,
      (ofSource (String.ofList (content line)) colons).drain.2.1 = none) :
    (ofSource source colons).drain.2.1 = none
      ∧ contentLexemes (ofSource source colons).drain.1
        = (first :: lines).flatMap fun line =>
          (ofSource (String.ofList (content line)) colons).said := by
  obtain ⟨hstart, hone⟩ := atStart_eq hlines .markup colons
  have hsource : ∀ line ∈ first :: lines,
      ofSource (String.ofList (content line)) colons = alone .markup colons (content line) :=
    fun line hmem => ofSource_eq_alone (not_mem_content fun hreturn =>
      not_mem_normalizeNewlines _ ((hone line hmem).2 _ hreturn)) colons
  replace hends : ∀ line ∈ first :: lines, (alone .markup colons (content line)).drain.2.1 = none :=
    fun line hmem => hsource line hmem ▸ hends line hmem
  have hreadable : ∀ line ∈ lines, Readable .markup colons line := fun line hmem =>
    ⟨(hone line (.tail _ hmem)).1, hfilled line hmem, hends line (.tail _ hmem)⟩
  have hstyle : InOneStyle (lines.map indentation) := by
    refine ⟨.spaces, List.forall_mem_map.mpr fun line hmem c hc => ?_⟩
    have hindentation := isIndentation_of_mem_indentation hc
    rw [isIndentation, Bool.or_eq_true, beq_iff_eq, beq_iff_eq] at hindentation
    exact hindentation.resolve_right fun htab => hspaces line hmem (htab ▸ hc)
  have hcontent : content first = first := content_of_stops hfirst
  have hendsFirst := hends first (.head _)
  rw [hcontent] at hendsFirst
  obtain ⟨tokens, last, hcarries, hlast, -, hsaid⟩ :=
    carries_source (hone first (.head _)).1 hendsFirst hreadable hstyle
  rw [← hstart] at hcarries
  have huntouched := untouched_ofSource source colons
  have hdrain : (ofSource source colons).drain = _ := hcarries.passes.drain huntouched
  have hlastUntouched := hcarries.passes.untouched huntouched
  rw [hdrain, drain_end hlastUntouched hlast.atText.input hlast.atText.pending]
  refine ⟨rfl, ?_⟩
  have hclosing : ∀ t ∈ List.replicate last.levels.length (last.token .outdent)
      ++ [last.token .eos], t.kind.isStructural = true := by
    intro t ht
    rcases List.mem_append.mp ht with ht | ht
    · rw [List.eq_of_mem_replicate ht]
      rfl
    · rw [List.mem_singleton.mp ht]
      rfl
  rw [contentLexemes_append, contentLexemes_of_structural hclosing, List.append_nil, hsaid,
    List.flatMap_cons, hsource first (.head _), hcontent]
  refine congrArg _ (List.flatMap_congr fun line hmem => ?_)
  rw [hsource line (.tail _ hmem)]
  rfl



/-- A list of two items with a nested element, and a text that goes back to no open level. -/
def nestedItems : List (List Char) :=
  ["  li(a='1') x".toList, "    b: i y".toList, "  li".toList, " | z(".toList]

theorem lexemes_nestedItems :
    Text.lines (normalizeNewlines "ul\n  li(a='1') x\n    b: i y\n  li\n | z(".toList)
        = "ul".toList :: nestedItems
      ∧ (ofSource "ul\n  li(a='1') x\n    b: i y\n  li\n | z(").drain.2.1 = none
      ∧ contentLexemes (ofSource "ul\n  li(a='1') x\n    b: i y\n  li\n | z(").drain.1
        = ("ul".toList :: nestedItems).flatMap fun line =>
          (ofSource (String.ofList (content line))).said := by
  have hlines : Text.lines (normalizeNewlines "ul\n  li(a='1') x\n    b: i y\n  li\n | z(".toList)
      = "ul".toList :: nestedItems := by decide
  have hfirst : Stops isIndentation "ul".toList := by
    rintro _ ⟨⟩
    rfl
  have hends : ∀ line ∈ "ul".toList :: nestedItems,
      (ofSource (String.ofList (content line))).drain.2.1 = none := by
    decide +kernel
  exact ⟨hlines, lexemes_lineByLine hlines hfirst (by decide) (by decide) hends⟩

end Lexer

end Stencil
