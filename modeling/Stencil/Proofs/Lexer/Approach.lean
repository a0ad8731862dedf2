import Stencil.Proofs.Lexer.Ahead
import Stencil.Proofs.Lexer.Bridges
import Stencil.Proofs.Lexer.Places

/-! # Approaches — steps of the lexer up to a shorthand

    A shorthand starts a statement at the front of a line or behind a colon, and
    what is left in front of it is an approach to it (`Approach`).  A step from
    there is the same with and without the name of the element, and what it
    leaves is an approach again; or it reads the shorthand, where the other line
    has the element; or it takes the place into another token (`Reaches`).  From
    the place on the text is the same, whatever was made of it. -/

namespace Stencil

open Form Lexer

/-- What stands on a line in front of the place: its indentation, or a part that leads there. -/
def Front (line : List Char) : Prop := (∀ c ∈ line, c = ' ' ∨ c = '\t') ∨ Leads line

/-- What may stand in front of the place. -/
inductive Approach : List Char → Prop where
  | here : Approach []
  | leads {text : List Char} (leads : Leads text) : Approach text
  | below {above line : List Char} (front : Front line) : Approach (above ++ '\n' :: line)

/-- A text whose first character ends no part in front of it, and is no part of one. -/
def Clear (more : List Char) : Prop := ∃ c rest, more = c :: rest ∧ c ∉ [' ', '\t', '\n', '/', '(']

variable {before above text line more : List Char} {place : BareShorthand}

theorem Front.newline_not_mem (h : Front line) : '\n' ∉ line := by
  rcases h with hblank | hleads
  · exact fun hmem => (hblank _ hmem).elim (by decide) (by decide)
  · exact hleads.oneLine

theorem Approach.behind {c : Char} (h : Approach (before ++ c :: text))
    (hc : c ∉ [':', ' ', '\t', '\n']) : Approach text := by
  simp only [List.mem_cons, List.not_mem_nil, or_false, not_or] at hc
  obtain ⟨hcolon, hspace, htab, hbreak⟩ := hc
  generalize hwhole : before ++ c :: text = whole at h
  cases h with
  | here => simp at hwhole
  | leads h => exact .leads ((hwhole ▸ h).behind hcolon hspace)
  | @below above line front =>
      rcases List.append_eq_append_iff.mp hwhole
        with ⟨skipped, -, hskipped⟩ | ⟨skipped, -, hskipped⟩
      · cases skipped with
        | nil => exact absurd (List.cons.inj hskipped).1 hbreak
        | cons d skipped =>
            rw [(List.cons.inj hskipped).2]
            exact .below front
      · cases skipped with
        | nil => exact absurd (List.cons.inj hskipped).1.symm hbreak
        | cons d skipped =>
            obtain ⟨-, rfl⟩ := List.cons.inj hskipped
            rcases front with hblank | hleads
            · exact absurd (hblank c (by simp)) (by simp [hspace, htab])
            · exact .leads (hleads.behind hcolon hspace)

theorem Approach.tail {c : Char} (h : Approach (c :: text)) (hc : c ∉ [':', ' ', '\t', '\n']) :
    Approach text := by
  have hnil : Approach ([] ++ c :: text) := h
  exact hnil.behind hc

namespace BareShorthand

variable (place : BareShorthand)

theorem clear_text : Clear place.text :=
  ⟨_, _, rfl, place.forall_sign (P := (· ∉ [' ', '\t', '\n', '/', '('])) (by decide) (by decide)⟩

theorem clear_full : Clear place.full := ⟨'d', _, rfl, by decide⟩

end BareShorthand

namespace Clear

variable (h : Clear more)
include h

theorem stops {p : Char → Bool} (hp : ∀ c, p c = true → c ∈ [' ', '\t', '\n', '/', '(']) :
    Stops p more := by
  obtain ⟨c, rest, rfl, hc⟩ := h
  rintro _ ⟨rfl⟩
  exact Bool.eq_false_iff.mpr fun hmem => hc (hp c hmem)

/-- A character at the front is that of the text in front. -/
theorem head?_append {c : Char} (hc : c ∈ [' ', '\t', '\n', '/', '(']) (text : List Char) :
    ((text ++ more).head? == some c) = (text.head? == some c) := by
  obtain ⟨d, rest, rfl, hd⟩ := h
  cases text with
  | nil => exact beq_eq_false_iff_ne.mpr fun heq => hd (Option.some.inj heq ▸ hc)
  | cons d text => rfl

/-- What stands at the front of the line ends no line, and opens no list that the line does not. -/
theorem exists_cons (hline : text = [] ∨ Leads text) :
    ∃ c rest, text ++ more = c :: rest ∧ c ≠ '\n' ∧ (c = '(' → ∃ list, text = '(' :: list) := by
  cases text with
  | nil =>
      obtain ⟨c, rest, rfl, hc⟩ := h
      simp only [List.mem_cons, List.not_mem_nil, or_false, not_or] at hc
      exact ⟨c, rest, rfl, hc.2.2.1, fun heq => absurd heq hc.2.2.2.2⟩
  | cons c text =>
      have hleads := hline.resolve_left (List.cons_ne_nil c text)
      refine ⟨c, text ++ more, rfl, fun heq => ?_, fun heq => ⟨text, heq ▸ rfl⟩⟩
      exact hleads.oneLine (heq ▸ List.mem_cons_self ..)

/-- A line with nothing blank at the front has something on it. -/
theorem exists_content (hline : text = [] ∨ Leads text)
    (hblank : ¬ ∃ c left, text = c :: left ∧ (c = ' ' ∨ c = '\t')) :
    ∃ c rest, text ++ more = c :: rest ∧ c ≠ ' ' ∧ c ≠ '\t' ∧ c ≠ '\n' := by
  cases text with
  | nil =>
      obtain ⟨c, rest, rfl, hc⟩ := h
      simp only [List.mem_cons, List.not_mem_nil, or_false, not_or] at hc
      exact ⟨c, rest, rfl, hc.1, hc.2.1, hc.2.2.1⟩
  | cons c text =>
      have hleads := hline.resolve_left (List.cons_ne_nil c text)
      refine ⟨c, text ++ more, rfl, fun heq => ?_, fun heq => ?_, fun heq => ?_⟩
      · exact hblank ⟨c, text, rfl, .inl heq⟩
      · exact hblank ⟨c, text, rfl, .inr heq⟩
      · exact hleads.oneLine (heq ▸ List.mem_cons_self ..)

end Clear

namespace Lexer

variable {lexer after : Lexer} {token : Token}

/-- What a step makes of a text in front of a shorthand, and of the one with the name of the element
    in front of the shorthand. -/
inductive Reaches (place : BareShorthand) (step : Lexer → Outcome Token) (lexer : Lexer) :
    Prop where
  /-- The step does not come to the place. -/
  | kept (outcome : Outcome Token)
      (bare : step (lexer.withTail place.text) = outcome.withTail place.text)
      (full : step (lexer.withTail place.full) = outcome.withTail place.full)
      (approach : ∀ token, outcome.1 = .ok token → Approach outcome.2.input)
  /-- The step is that of the place. -/
  | here (after : Lexer) (pending : after.pending = [])
      (bare : step (lexer.withTail place.text)
        = (.ok (place.token after.line), { after with input := place.rest }))
      (full : step (lexer.withTail place.full)
        = (.ok ⟨after.line, .tag "div" false⟩, { after with input := place.text }))
  /-- The step takes the place into a token. -/
  | past (token : Token) (after : Lexer)
      (bare : step (lexer.withTail place.text) = (.ok token, after))
      (suffix : after.input <:+ place.name ++ place.rest)
      (kind : token.kind ≠ .idName ∧ token.kind ≠ .className)

/-! ## The front of the line -/

theorem enterLine_clear (hmore : Clear more) (lexer : Lexer) (line : List Char) :
    (lexer.withTail more).enterLine (line ++ more) = (lexer.enterLine line).withTail more
      ∧ widthIn (styleFor lexer.lock (line ++ more)) (line ++ more)
        = widthIn (styleFor lexer.lock line) line := by
  have hstyle : styleFor lexer.lock (line ++ more) = styleFor lexer.lock line := by
    unfold styleFor
    rw [hmore.head?_append (by decide)]
  have hwidth : widthIn (styleFor lexer.lock line) (line ++ more)
      = widthIn (styleFor lexer.lock line) line := by
    rw [widthIn, takeWhile_stopped (hmore.stops fun c hc => ?_), widthIn]
    obtain rfl := beq_iff_eq.mp hc
    cases styleFor lexer.lock line <;> decide
  have hle : widthIn (styleFor lexer.lock line) line ≤ line.length :=
    (List.takeWhile_sublist _).length_le
  refine ⟨?_, hstyle ▸ hwidth⟩
  unfold enterLine withTail
  dsimp only
  rw [hstyle, hwidth, List.drop_append_of_le_length hle]

/-- What is left of the front of a line behind the indentation. -/
theorem enterLine_front (lexer : Lexer) (hline : Front line) :
    (∀ c ∈ (lexer.enterLine line).input.head?, c = ' ' ∨ c = '\t')
      ∨ Leads (lexer.enterLine line).input := by
  have hinput : (lexer.enterLine line).input
      = line.dropWhile (· == (styleFor lexer.lock line).char) := by
    unfold enterLine widthIn
    dsimp only
    generalize (styleFor lexer.lock line).char = c
    have hsplit : line.takeWhile (· == c) ++ line.dropWhile (· == c) = line :=
      List.takeWhile_append_dropWhile
    exact (congrArg (List.drop _) hsplit.symm).trans List.drop_left
  rw [hinput]
  refine hline.imp (fun hblank c hc => ?_) fun hleads => hleads.dropWhile ?_
  · exact hblank c ((List.dropWhile_sublist _).mem (List.mem_of_mem_head? hc))
  · cases styleFor lexer.lock line <;> decide

theorem placeLine_input (lexer : Lexer) (width : Nat) :
    (lexer.placeLine width).2.input = lexer.input := by
  unfold placeLine
  dsimp only
  split
  · rfl
  · split <;> rfl

/-- A line that goes on with the other indentation character is refused. -/
theorem readLineBreak_of_blank {c : Char} {left : List Char}
    (h : (lexer.enterLine text).input = c :: left) (hc : c = ' ' ∨ c = '\t') :
    lexer.readLineBreak text = (lexer.enterLine text).fail .mixedIndentation := by
  have hblank : (c == ' ' || c == '\t') = true := by simpa using hc
  unfold readLineBreak
  dsimp only
  rw [h]
  simp only [hblank, if_true]

/-- A line with something on it is compared to the innermost level. -/
theorem readLineBreak_of_content {c : Char} {left : List Char}
    (h : (lexer.enterLine text).input = c :: left) (hc : c ≠ ' ' ∧ c ≠ '\t' ∧ c ≠ '\n') :
    lexer.readLineBreak text
      = (lexer.enterLine text).placeLine (widthIn (styleFor lexer.lock text) text) := by
  have hblank : (c == ' ' || c == '\t') = false := by simp [hc]
  have hbreak : (c == '\n') = false := by simp [hc]
  unfold readLineBreak
  dsimp only
  rw [h]
  simp only [hblank, hbreak, Bool.false_eq_true, if_false]

/-- The break in front of the line of the place is read alike, whatever stands there. -/
theorem readLineBreak_front (lexer : Lexer) (hline : Front line) :
    ∃ outcome : Outcome Token,
      (∀ more, Clear more →
        (lexer.withTail more).readLineBreak (line ++ more) = outcome.withTail more)
      ∧ ∀ token, outcome.1 = .ok token → Approach outcome.2.input := by
  generalize hentered : lexer.enterLine line = entered
  have hfront : (∀ c ∈ entered.input.head?, c = ' ' ∨ c = '\t') ∨ Leads entered.input :=
    hentered ▸ enterLine_front lexer hline
  have henter : ∀ {more}, Clear more →
      (lexer.withTail more).enterLine (line ++ more) = entered.withTail more := fun hmore =>
    hentered ▸ (enterLine_clear hmore lexer line).1
  by_cases hblank : ∃ c left, entered.input = c :: left ∧ (c = ' ' ∨ c = '\t')
  · obtain ⟨c, left, hinput, hc⟩ := hblank
    refine ⟨entered.fail .mixedIndentation, fun more hmore => ?_, fun _ hok => by cases hok⟩
    have hinput' :
        ((lexer.withTail more).enterLine (line ++ more)).input = c :: (left ++ more) := by
      rw [henter hmore, withTail, hinput]
      rfl
    exact (readLineBreak_of_blank hinput' hc).trans
      (congrArg (Lexer.fail · .mixedIndentation) (henter hmore))
  · have hleft : entered.input = [] ∨ Leads entered.input := by
      refine hfront.imp_left fun hhead => ?_
      rcases hinput : entered.input with - | ⟨c, left⟩
      · rfl
      · exact absurd ⟨c, left, hinput, hhead c (by rw [hinput]; rfl)⟩ hblank
    refine ⟨entered.placeLine (widthIn (styleFor lexer.lock line) line), fun more hmore => ?_,
      fun _ _ => ?_⟩
    · obtain ⟨c, rest, hinput, hc⟩ := hmore.exists_content hleft hblank
      have hinput' : ((lexer.withTail more).enterLine (line ++ more)).input = c :: rest :=
        (congrArg Lexer.input (henter hmore)).trans hinput
      have hwidth : widthIn (styleFor (lexer.withTail more).lock (line ++ more)) (line ++ more)
          = widthIn (styleFor lexer.lock line) line := (enterLine_clear hmore lexer line).2
      rw [readLineBreak_of_content hinput' hc, henter hmore, hwidth, placeLine_withTail]
    · rw [placeLine_input]
      exact hleft.elim (fun hnil => hnil ▸ .here) .leads

/-! ## Lists -/

/-- A word without parentheses may stand anywhere in a group. -/
theorem depthAfter_skip {word : List Char} (hopening : '(' ∉ word) (hclosing : ')' ∉ word)
    (after before : List Char) : ∀ depth : Nat,
    depthAfter depth (before ++ (word ++ after)) = depthAfter depth (before ++ after) := by
  induction before with
  | nil =>
      intro depth
      simp only [List.nil_append]
      induction word with
      | nil => rfl
      | cons c word ih =>
          rw [List.mem_cons, not_or] at hopening hclosing
          simp only [List.cons_append, depthAfter, beq_iff_eq, Ne.symm hopening.1,
            Ne.symm hclosing.1, if_false]
          exact ih hopening.2 hclosing.2
  | cons c before ih =>
      intro depth
      simp only [List.cons_append, depthAfter]
      split
      · exact ih _
      · split
        · split
          · rfl
          · exact ih _
        · exact ih _

theorem group?_closing (place : BareShorthand) (text : List Char) : Closing (group? 0) place text :=
  closing (P := fun inside _ => depthAfter 0 inside = some 0) place text
    (group?_eq_some_iff.trans And.comm) (fun _ _ => Iff.rfl) fun inside _ => by
      rw [depthAfter_skip (by decide) (by decide)]

theorem scanLine_list (hmode : lexer.mode = .markup) (hinput : lexer.input = '(' :: text)
    (h : Approach lexer.input) : Reaches place scanLine lexer := by
  have hscan : ∀ more, (lexer.withTail more).scanLine
      = (lexer.withTail more).readAttributes (text ++ more) := by
    intro more
    have hinput' : (lexer.withTail more).input = '(' :: (text ++ more) := by
      rw [withTail, hinput]
      rfl
    unfold scanLine
    rw [hinput', show (lexer.withTail more).mode = .markup from hmode]
    rfl
  cases group?_closing place text with
  | unclosed bare full =>
      refine .kept (lexer.fail .unterminatedAttributes) ?_ ?_ fun _ hok => by cases hok
      · rw [hscan, readAttributes, bare]
        rfl
      · rw [hscan, readAttributes, full]
        rfl
  | kept inside left text_eq bare full =>
      have hwhole : Approach (('(' :: inside) ++ ')' :: left) := by
        rw [hinput, text_eq] at h
        exact h
      have hleft : Approach left := hwhole.behind (by decide)
      have hgroup : group? 0 text = some (inside, left) :=
        group?_eq_some_iff.mpr ⟨(group?_eq_some_iff.mp bare).1, text_eq⟩
      have hread : ∀ more, Clear more → group? 0 (text ++ more) = some (inside, left ++ more) →
          (lexer.withTail more).scanLine = (lexer.readAttributes text).withTail more := by
        intro more hmore hfound
        rw [hscan, readAttributes, hfound, readAttributes, hgroup]
        dsimp only
        rw [hmore.head?_append (by decide), Form.closed_tail]
        rfl
      refine .kept (lexer.readAttributes text) (hread _ place.clear_text bare)
        (hread _ place.clear_full full) fun _ _ => ?_
      rw [readAttributes, hgroup]
      dsimp only [emit]
      split
      · next hslash =>
          obtain ⟨behind, rfl⟩ := List.head?_eq_some_iff.mp (beq_iff_eq.mp hslash)
          exact hleft.tail (by decide)
      · exact hleft
  | past inside rest suffix bare full =>
      have hread := hscan place.text
      rw [readAttributes, bare] at hread
      have hkind : TokenKind.attrs ≠ .idName ∧ TokenKind.attrs ≠ .className := by decide
      refine .past _ _ hread ?_ hkind
      dsimp only
      split
      · exact (List.tail_suffix rest).trans suffix
      · exact suffix

/-! ## The line of the place -/

/-- A raw line takes the place in. -/
theorem readRawLine_reaches (hinput : ∀ c ∈ lexer.input, (c != '\n') = true) :
    Reaches place readRawLine lexer := by
  have hkind : TokenKind.text ≠ .idName ∧ TokenKind.text ≠ .className := by decide
  refine .past ((lexer.withTail place.text).token .text _) _ rfl ?_ hkind
  refine place.dropWhile_past hinput ?_
  exact place.forall_sign (P := fun c => (c != '\n') = true) (by decide) (by decide)

/-- The form of a line that leads to the place. -/
theorem readForm_reaches (h : Leads lexer.input) : Reaches place readForm lexer := by
  have hread : ∀ {more : List Char} {found : Match},
      first? (lexer.input ++ more) = some found → (lexer.withTail more).readForm
        = (.ok ⟨lexer.line, found.lexeme⟩,
          { lexer with
            input := found.rest,
            pending := lexer.pending ++ if found.colon then [lexer.token .colon] else [] }) := by
    intro more found hfound
    unfold readForm
    rw [show (lexer.withTail more).input = lexer.input ++ more from rfl, hfound]
    rfl
  have hfinds : Finds place first? lexer.input := first?_finds h
  cases hfinds with
  | none bare full =>
      obtain ⟨c, text, hinput⟩ := List.exists_cons_of_ne_nil h.ne_nil
      have hc : c ≠ '\n' := fun heq => h.oneLine (hinput ▸ heq ▸ List.mem_cons_self ..)
      obtain ⟨found, hfound⟩ := first?_line hc (text ++ place.text)
      rw [hinput, List.cons_append, hfound] at bare
      cases bare
  | kept found left bare full =>
      refine .kept (.ok ⟨lexer.line, found.lexeme⟩,
          { lexer with
            input := found.rest,
            pending := lexer.pending ++ if found.colon then [lexer.token .colon] else [] })
        (hread bare) (hread full) fun _ _ => ?_
      exact left.elim (fun hnil => hnil ▸ .here) .leads
  | past found left bare =>
      have hkind : ¬(found.lexeme.kind = .idName ∨ found.lexeme.kind = .className) := by
        -- a shorthand would have the space in its name
        intro hkind
        obtain ⟨sign, name, htext, hsign, hname⟩ := first?_shorthand bare hkind
        obtain ⟨d, text, hinput⟩ := List.exists_cons_of_ne_nil h.ne_nil
        have hspace := h.space_mem
        rw [hinput] at htext hspace
        obtain ⟨rfl, hsplit⟩ := List.cons.inj htext
        have hspace : ' ' ∈ text := (List.mem_cons.mp hspace).resolve_left
          (hsign.elim (fun heq => heq ▸ by decide) fun heq => heq ▸ by decide)
        rcases List.append_eq_append_iff.mp hsplit with ⟨more, rfl, -⟩ | ⟨more, -, hrest⟩
        · exact absurd (hname ' ' (List.mem_append_left more hspace)) (by decide)
        · have hlength := left.length_le
          rw [hrest, List.length_append, BareShorthand.text, List.length_cons] at hlength
          omega
      exact .past _ _ (hread bare) left (not_or.mp hkind)

/-- At the place itself the shorthand is read, or the element. -/
theorem readForm_here (hpending : lexer.pending = []) (hinput : lexer.input = []) :
    Reaches place readForm lexer := by
  have hread : ∀ {more : List Char} {lexeme : Lexeme} {rest : List Char},
      first? more = some ⟨lexeme, false, rest⟩ →
      (lexer.withTail more).readForm
        = (.ok ⟨lexer.line, lexeme⟩, { lexer with input := rest }) := by
    intro more lexeme rest hfound
    unfold readForm
    rw [show (lexer.withTail more).input = more by rw [withTail, hinput]; rfl, hfound]
    simp only [Bool.false_eq_true, if_false, List.append_nil]
    rfl
  exact .here lexer hpending (hread place.first?_bare) (hread place.first?_full)

/-- A step that is another one in front of the place. -/
theorem Reaches.congr {step other : Lexer → Outcome Token} {middle : Lexer}
    (h : Reaches place step middle)
    (heq : ∀ more, Clear more → other (lexer.withTail more) = step (middle.withTail more)) :
    Reaches place other lexer := by
  cases h with
  | kept outcome bare full approach =>
      exact .kept outcome ((heq _ place.clear_text).trans bare)
        ((heq _ place.clear_full).trans full) approach
  | here after pending bare full =>
      exact .here after pending ((heq _ place.clear_text).trans bare)
        ((heq _ place.clear_full).trans full)
  | past token after bare suffix kind =>
      exact .past token after ((heq _ place.clear_text).trans bare) suffix kind

theorem scanLine_cons {c : Char} (hinput : lexer.input = c :: text) (hc : c ≠ '\n') :
    lexer.scanLine = match lexer.mode with
      | .raw => lexer.readRawLine
      | .markup => if c == '(' then lexer.readAttributes text else lexer.readForm := by
  unfold scanLine
  rw [hinput]
  split
  · next hnil => cases hnil
  · next hbreak => exact absurd (List.cons.inj hbreak).1 hc
  · next hcons =>
      obtain ⟨rfl, rfl⟩ := List.cons.inj hcons
      rfl

/-- A scan on the line of the place. -/
theorem scanLine_onLine (hpending : lexer.pending = [])
    (h : lexer.input = [] ∨ Leads lexer.input) : Reaches place scanLine lexer := by
  have hline : ∀ c ∈ lexer.input, (c != '\n') = true := fun c hc => by
    rcases h with hnil | hleads
    · rw [hnil] at hc
      cases hc
    · exact bne_iff_ne.mpr fun heq => hleads.oneLine (heq ▸ hc)
  by_cases hlist : lexer.mode = .markup ∧ ∃ text, lexer.input = '(' :: text
  · obtain ⟨hmode, text, hinput⟩ := hlist
    have hleads := h.resolve_left fun hnil => by rw [hnil] at hinput; cases hinput
    exact scanLine_list hmode hinput (.leads hleads)
  · have hscan : ∀ more, Clear more → (lexer.withTail more).scanLine
        = match lexer.mode with
          | .raw => (lexer.withTail more).readRawLine
          | .markup => (lexer.withTail more).readForm := by
      intro more hmore
      obtain ⟨c, rest, hinput, hc, hparen⟩ := hmore.exists_cons h
      have hinput' : (lexer.withTail more).input = c :: rest := hinput
      rw [scanLine_cons hinput' hc, show (lexer.withTail more).mode = lexer.mode from rfl]
      cases hmode : lexer.mode with
      | raw => rfl
      | markup => exact if_neg fun heq => hlist ⟨hmode, hparen (beq_iff_eq.mp heq)⟩
    cases hmode : lexer.mode with
    | raw =>
        rw [hmode] at hscan
        exact (readRawLine_reaches hline).congr hscan
    | markup =>
        rw [hmode] at hscan
        have hform : Reaches place readForm lexer :=
          h.elim (readForm_here hpending) readForm_reaches
        exact hform.congr hscan

/-! ## The lines above -/

theorem afterBlankLine?_front (hline : Front line) (hmore : Clear more) :
    afterBlankLine? ('\n' :: (line ++ more)) = none := by
  obtain ⟨c, rest, rfl, hc⟩ := hmore
  simp only [List.mem_cons, List.not_mem_nil, or_false, not_or] at hc
  have hmem : c ∈ line ++ [c] := List.mem_append_right line (List.mem_singleton_self c)
  have hdrop : Text.dropSpaces (line ++ c :: rest) = Text.dropSpaces (line ++ [c]) ++ rest := by
    rw [show line ++ c :: rest = line ++ [c] ++ rest by simp]
    exact dropWhile_append_of_mem hmem (by simpa using hc.1) rest
  have hhead : (Text.dropSpaces (line ++ c :: rest)).head? ≠ some '\n' := by
    rw [hdrop]
    intro hhead
    have hleft : Text.dropSpaces (line ++ [c]) ≠ [] := fun hnil =>
      absurd (List.dropWhile_eq_nil_iff.mp hnil c hmem) (by simpa using hc.1)
    rw [List.head?_append_of_ne_nil _ hleft] at hhead
    have hbreak := (List.dropWhile_sublist _).mem (List.mem_of_mem_head? hhead)
    rcases List.mem_append.mp hbreak with hbreak | hbreak
    · exact hline.newline_not_mem hbreak
    · exact hc.2.2.1 (List.mem_singleton.mp hbreak).symm
  simp only [afterBlankLine?]
  rw [if_neg (by simpa using hhead)]

theorem not_unclosed_readLineBreak (lexer : Lexer) (text : List Char) :
    ¬ (lexer.readLineBreak text).Unclosed := by
  rintro ⟨fault, hfault, hcause⟩
  unfold readLineBreak at hfault
  dsimp only at hfault
  split at hfault
  · cases hfault
  · split at hfault
    · cases hfault
      cases hcause
    · split at hfault
      · cases hfault
      · unfold placeLine at hfault
        dsimp only at hfault
        split at hfault
        · cases hfault
        · split at hfault <;> cases hfault

/-- Only a list is left open. -/
theorem unclosed_scanLine (h : lexer.scanLine.Unclosed) :
    lexer.mode = .markup ∧ ∃ text, lexer.input = '(' :: text := by
  obtain ⟨fault, hfault, hcause⟩ := h
  unfold scanLine at hfault
  split at hfault
  · unfold readEnd at hfault
    split at hfault <;> cases hfault
  · exact absurd ⟨fault, hfault, hcause⟩ (not_unclosed_readLineBreak lexer _)
  · next c text _ hinput =>
      split at hfault
      · cases hfault
      · next hmode =>
          split at hfault
          · next hparen => exact ⟨hmode, text, beq_iff_eq.mp hparen ▸ hinput⟩
          · unfold readForm at hfault
            split at hfault
            · cases hfault
              cases hcause
            · cases hfault

theorem unclosed_scan (h : lexer.scan.Unclosed) :
    lexer.mode = .markup ∧ lexer.pastBlankLines.scanLine.Unclosed := by
  cases hmode : lexer.mode with
  | markup => exact ⟨rfl, scan_markup hmode ▸ h⟩
  | raw =>
      unfold scan at h
      rw [hmode] at h
      split at h
      · have hmarkup := (unclosed_scanLine h).1
        rw [hmode] at hmarkup
        cases hmarkup
      · obtain ⟨fault, hfault, -⟩ := h
        cases hfault

/-- A scan that comes to the line of the place breaks the line above it. -/
theorem scanLine_break (hline : Front line) (hinput : lexer.input = '\n' :: line) :
    Reaches place scanLine lexer := by
  obtain ⟨outcome, hbreak, happroach⟩ := readLineBreak_front lexer hline
  have hscan : ∀ more, Clear more →
      (lexer.withTail more).scanLine = outcome.withTail more := by
    intro more hmore
    rw [← hbreak more hmore]
    unfold scanLine
    rw [show (lexer.withTail more).input = '\n' :: (line ++ more) by rw [withTail, hinput]; rfl]
    rfl
  exact .kept outcome (hscan _ place.clear_text) (hscan _ place.clear_full) happroach

/-- A scan with no blank line at the front. -/
theorem scan_of_none (h : afterBlankLine? lexer.input = none) : lexer.scan = lexer.scanLine := by
  unfold scan
  rw [h]

/-- Between raw lines a blank line is an empty line of text. -/
theorem scan_raw_of_some {rest : List Char} (hmode : lexer.mode = .raw)
    (h : afterBlankLine? lexer.input = some rest) :
    lexer.scan = { lexer with input := rest, line := lexer.line + 1 }.emit
      (.bare .text (lexer.line + 1 : Nat)) := by
  unfold scan
  rw [h]
  dsimp only
  rw [hmode]
  rfl

section Below

variable (hinput : lexer.input = above ++ '\n' :: line)
include hinput

theorem withTail_below (more : List Char) : lexer.withTail more
    = { lexer with input := above }.withTail ('\n' :: (line ++ more)) := by
  rw [withTail, hinput]
  simp [withTail]

variable (hline : Front line)
include hline

/-- Between statements the blank lines above are passed. -/
theorem scan_blank_markup (hmode : lexer.mode = .markup) (hblank : BlankLines above) :
    Reaches place scan lexer := by
  obtain ⟨number, hpast⟩ := pastBlankLines_withTail hblank { lexer with input := above } rfl
  have hreached : Reaches place scanLine { lexer with input := '\n' :: line, line := number } :=
    scanLine_break hline rfl
  refine hreached.congr fun more hmore => ?_
  have hmode' : (lexer.withTail more).mode = .markup := hmode
  rw [scan_markup hmode', withTail_below hinput, hpast,
    pastBlankLines_of_none (afterBlankLine?_front hline hmore)]
  rfl

/-- Between raw lines the first blank line above is a line of text. -/
theorem scan_blank_raw (hmode : lexer.mode = .raw) (hblank : BlankLines above) :
    Reaches place scan lexer := by
  have hinput' : ∀ more, (lexer.withTail more).input = above ++ '\n' :: (line ++ more) :=
    fun more => congrArg Lexer.input (withTail_below hinput more)
  cases hblank with
  | nil =>
      refine (scanLine_break hline hinput).congr fun more hmore => scan_of_none ?_
      rw [hinput']
      exact afterBlankLine?_front hline hmore
  | @line blank above hspaces habove =>
      -- what is behind the blank line starts with a break, too
      obtain ⟨below, hbelow⟩ : ∃ below, ∀ more, above ++ '\n' :: (line ++ more)
          = '\n' :: (below ++ more) := by
        cases habove with
        | nil => exact ⟨line, fun more => rfl⟩
        | @line blank above _ _ => exact ⟨blank ++ above ++ '\n' :: line, fun more => by simp⟩
      have hstep : ∀ more, (lexer.withTail more).scan
          = Outcome.withTail ({ lexer with
              input := above ++ '\n' :: line, line := lexer.line + 1 }.emit
                (.bare .text (lexer.line + 1 : Nat))) more := by
        intro more
        have hrest : afterBlankLine? (lexer.withTail more).input
            = some (above ++ '\n' :: (line ++ more)) := by
          rw [hinput', List.cons_append, List.append_assoc, hbelow,
            afterBlankLine?_blank hspaces]
        have hmode' : (lexer.withTail more).mode = .raw := hmode
        rw [scan_raw_of_some hmode' hrest]
        simp [Outcome.withTail, emit, withTail]
      exact .kept _ (hstep _) (hstep _) fun _ _ => .below hline

/-- A list that is open above may go on behind the place. -/
theorem scan_unclosed (hblank : ¬ BlankLines above)
    (hunclosed : { lexer with input := above }.scan.Unclosed) : Reaches place scan lexer := by
  obtain ⟨hmode, hlist⟩ := unclosed_scan hunclosed
  obtain ⟨hmode', text, htext⟩ := unclosed_scanLine hlist
  have hreached : Reaches place scanLine
      ({ lexer with input := above }.pastBlankLines.withTail ('\n' :: line)) := by
    have hinput' : ({ lexer with input := above }.pastBlankLines.withTail ('\n' :: line)).input
        = '(' :: (text ++ '\n' :: line) := by
      rw [withTail, htext]
      rfl
    have happroach : Approach (('(' :: text) ++ '\n' :: line) := .below hline
    exact scanLine_list hmode' hinput' (hinput' ▸ happroach)
  refine hreached.congr fun more _ => ?_
  have hmode' : (lexer.withTail more).mode = .markup := hmode
  rw [scan_markup hmode', withTail_below hinput, (pastBlankLines_above _ hblank).1]
  simp [withTail]

/-- Else the scan does not come to the line of the place. -/
theorem scan_above (hblank : ¬ BlankLines above)
    (hclosed : ¬ { lexer with input := above }.scan.Unclosed) : Reaches place scan lexer := by
  have hends : ∀ more, EndsLine ('\n' :: (line ++ more)) := by
    rintro more _ ⟨⟩
    rfl
  have hscan : ∀ more, (lexer.withTail more).scan
      = ({ lexer with input := above }.scan.withTail ('\n' :: line)).withTail more := by
    intro more
    rw [withTail_below hinput, (scan_withTail (hends more) hblank).resolve_left hclosed]
    simp [Outcome.withTail, withTail]
  exact .kept _ (hscan _) (hscan _) fun _ _ => .below hline

theorem scan_below : Reaches place scan lexer := by
  by_cases hblank : BlankLines above
  · cases hmode : lexer.mode with
    | markup => exact scan_blank_markup hinput hline hmode hblank
    | raw => exact scan_blank_raw hinput hline hmode hblank
  · by_cases hunclosed : { lexer with input := above }.scan.Unclosed
    · exact scan_unclosed hinput hline hblank hunclosed
    · exact scan_above hinput hline hblank hunclosed

end Below

/-- **A step in front of a shorthand** is the same whether the name of the element stands there,
    reads the shorthand or the element, or takes the place in. -/
theorem next_reaches (place : BareShorthand) (h : Approach lexer.input) :
    Reaches place next lexer := by
  cases hpending : lexer.pending with
  | cons token pending =>
      have hnext : ∀ more, (lexer.withTail more).next
          = Outcome.withTail (.ok token, { lexer with pending }) more := by
        intro more
        unfold next
        rw [show (lexer.withTail more).pending = token :: pending from hpending]
        rfl
      exact .kept _ (hnext _) (hnext _) fun _ _ => h
  | nil =>
      have hnext : ∀ more, (lexer.withTail more).next = (lexer.withTail more).scan := by
        intro more
        unfold next
        rw [show (lexer.withTail more).pending = [] from hpending]
      have hline : (lexer.input = [] ∨ Leads lexer.input) → Reaches place next lexer := by
        intro hline
        refine (scanLine_onLine hpending hline).congr fun more hmore => ?_
        refine next_eq_scanLine hpending ?_
        obtain ⟨c, rest, hinput, hc, -⟩ := hmore.exists_cons hline
        rw [show (lexer.withTail more).input = lexer.input ++ more from rfl, hinput]
        exact afterBlankLine?.eq_2 _ fun _ heq => hc (List.cons.inj heq).1
      generalize hinput : lexer.input = text at h
      cases h with
      | here => exact hline (.inl hinput)
      | leads hleads => exact hline (.inr (hinput ▸ hleads))
      | below front => exact (scan_below hinput front).congr fun more _ => hnext more

end Lexer

end Stencil
