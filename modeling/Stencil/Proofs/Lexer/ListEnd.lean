import Stencil.Proofs.Lexer.Elements
import Stencil.Proofs.Lexer.RawLines
import Stencil.Proofs.Lexer.Transparency

/-! # List ends — where an attribute list ends for the lexer

    The lexer finds the end of an attribute list by counting parentheses, and
    hands what stands before it to the scanner of attributes.  It knows nothing
    of string literals.  So an element with a list and a text behind it is read
    as an element, the list and the text exactly when the parentheses of the list
    are balanced, those in literals included (`lexemes_list_iff`).  One that
    stands alone in a literal moves the end of the list
    (`parenthesisInLiteral_misread`).

    A list that ends too early leaves more of the line than the text, and one
    that ends too late leaves less; a line of text loses at most the two
    characters of a bar and a space (`length_unmarked`), and neither is at the
    front of what is left. -/

namespace Stencil

open Form

/-! ## Texts behind a list -/

/-- What can stand on the rest of a line as text: something, and not a comment. -/
def IsText (text : List Char) : Prop :=
  text ≠ [] ∧ '\n' ∉ text ∧ '\r' ∉ text ∧ ¬ ['/', '/'] <+: Text.dropSpaces text

instance (text : List Char) : Decidable (IsText text) :=
  inferInstanceAs (Decidable (_ ∧ _ ∧ _ ∧ _))

namespace Form

variable {text : List Char}

theorem unmarked_suffix (text : List Char) : unmarked text <:+ text := by
  unfold unmarked
  split
  · exact List.suffix_append ['|', ' '] _
  · exact List.suffix_cons _ _
  · exact List.suffix_cons _ _
  · exact List.suffix_rfl

/-- A line loses its mark, and only a bar goes with a space. -/
theorem length_unmarked (text : List Char) :
    text.length ≤ (unmarked text).length + 2
      ∧ (text.head? ≠ some '|' → text.length ≤ (unmarked text).length + 1) := by
  unfold unmarked
  split <;> simp

/-- Behind a space there is a comment or a text. -/
theorem first?_space (text : List Char) :
    first? (' ' :: text) = (comment (' ' :: text) <|> textLine (' ' :: text)) := by
  have hspace : Text.isWord ' ' = false := by decide
  have hword : run? Text.isWord (' ' :: text) = none := by simp [run?, hspace]
  simp [first?, ordered, yieldMark, doctype, interpolatedTag, caseHead, whenArm, defaultArm,
    extendsPath, appendBlock, prependBlock, namedBlock, includePath, mixinHead, mixinCall,
    conditional, conditionOf, eachHead, dropDash, whileHead, keywordLine, assignment, tagName,
    filterName, codeLine, signedCode, idName, className, signed, afterWholeWord?, afterWord?,
    hspace, hword]
  rw [List.findSome?_cons, List.findSome?_cons, List.findSome?_nil]
  cases comment (' ' :: text) <;> cases textLine (' ' :: text) <;> rfl

theorem comment_space_eq_none_iff :
    comment (' ' :: text) = none ↔ ¬ ['/', '/'] <+: Text.dropSpaces text := by
  have hdrop : Text.dropSpaces (' ' :: text) = Text.dropSpaces text := by
    rw [Text.dropSpaces, List.dropWhile_cons_of_pos (by rfl)]
    rfl
  rw [comment, hdrop]
  cases h : afterWord? "//".toList (Text.dropSpaces text) with
  | none =>
      refine iff_of_true rfl ?_
      rintro ⟨after, hafter⟩
      have hsome := afterWord?_eq_some_iff.mpr hafter.symm
      cases h.symm.trans hsome
  | some after =>
      refine iff_of_false (Option.some_ne_none _) (not_not_intro ⟨after, ?_⟩)
      exact (afterWord?_eq_some_iff.mp h).symm

/-- A line that is not empty is taken as a whole. -/
theorem textLine_eq_some (hne : text ≠ []) (hline : '\n' ∉ text) :
    textLine text
      = some { lexeme := .bare .text (String.ofList (unmarked text)), rest := [] } := by
  have hall : ∀ c ∈ text, inLine c = true := fun c hc => bne_iff_ne.mpr fun h => hline (h ▸ hc)
  rw [textLine, run?, List.takeWhile_eq_self_iff.mpr hall, List.dropWhile_eq_nil_iff.mpr hall,
    if_neg (by simpa using hne)]
  rfl

/-- A text that nothing is left behind is the whole line. -/
theorem of_textLine_whole {found : Match} (h : textLine text = some found)
    (hrest : found.rest = []) :
    text ≠ [] ∧ '\n' ∉ text
      ∧ found.lexeme = .bare .text (String.ofList (unmarked text)) := by
  simp only [textLine, run?, Option.bind_eq_bind, Option.bind_eq_some_iff, Option.pure_def,
    Option.some.injEq, Prod.exists] at h
  obtain ⟨line, after, hrun, rfl⟩ := h
  split at hrun
  · cases hrun
  · next hsome =>
      obtain ⟨rfl, rfl⟩ := Prod.mk.inj (Option.some.inj hrun)
      have hall := List.dropWhile_eq_nil_iff.mp hrest
      have hself := List.takeWhile_eq_self_iff.mpr hall
      rw [hself] at hsome ⊢
      exact ⟨by simpa using hsome, fun hmem => absurd (hall _ hmem) (by decide), rfl⟩

end Form

/-! ## The tokens of a line -/

namespace Lexer

variable {lexer after : Lexer} {token : Token} {text : List Char}

/-- What a lexer says up to the end of the stream, or up to a fault. -/
def lexemes (lexer : Lexer) : List Lexeme × Option LexicalFault :=
  (lexer.drain.1.map Token.lexeme, lexer.drain.2.1)

theorem lexemes_of_next (h : lexer.Untouched) (hnext : lexer.next = (.ok token, after))
    (hne : token.kind ≠ .eos) :
    lexer.lexemes = (token.lexeme :: after.lexemes.1, after.lexemes.2) := by
  rw [lexemes, drain_of_next h hnext hne]
  rfl

theorem lexemes_of_eos (h : lexer.Untouched) (hnext : lexer.next = (.ok token, after))
    (heos : token.kind = .eos) : lexer.lexemes = ([token.lexeme], none) := by
  rw [lexemes, drain_of_eos h hnext heos]
  rfl

theorem lexemes_of_error {fault : LexicalFault} (h : lexer.Untouched)
    (hnext : lexer.next = (.error fault, after)) : lexer.lexemes = ([], some fault) := by
  rw [lexemes, drain_of_error h hnext]
  rfl

/-- What is said first is said by the next token, and the rest by the lexer behind it. -/
theorem lexemes_eq_cons {lexeme : Lexeme} {lexemes : List Lexeme} (h : lexer.Untouched)
    (hlexemes : lexer.lexemes = (lexeme :: lexemes, none)) (hne : lexeme.kind ≠ .eos) :
    ∃ token after, lexer.next = (.ok token, after) ∧ token.lexeme = lexeme
      ∧ after.lexemes = (lexemes, none) := by
  rcases hnext : lexer.next with ⟨fault | token, after⟩
  · rw [lexemes_of_error h hnext] at hlexemes
    exact nomatch hlexemes
  · by_cases heos : token.kind = .eos
    · rw [lexemes_of_eos h hnext heos] at hlexemes
      obtain ⟨rfl, -⟩ := List.cons.inj (congrArg Prod.fst hlexemes)
      exact absurd heos hne
    · rw [lexemes_of_next h hnext heos] at hlexemes
      obtain ⟨rfl, htokens⟩ := List.cons.inj (congrArg Prod.fst hlexemes)
      have hfault : after.lexemes.2 = none := congrArg Prod.snd hlexemes
      exact ⟨token, after, rfl, rfl, Prod.ext htokens hfault⟩

/-- Only a lexer that has ended says nothing but that. -/
theorem finished_of_lexemes (h : lexer.Untouched)
    (hlexemes : lexer.lexemes = ([.bare .eos ""], none)) : lexer.Finished := by
  rcases hnext : lexer.next with ⟨fault | token, after⟩
  · rw [lexemes_of_error h hnext] at hlexemes
    exact nomatch hlexemes
  · by_cases heos : token.kind = .eos
    · exact (next_eos h.pending hnext heos).1
    · rw [lexemes_of_next h hnext heos] at hlexemes
      have hlexeme : token.lexeme = .bare .eos "" := (List.cons.inj (congrArg Prod.fst hlexemes)).1
      exact absurd (congrArg Lexeme.kind hlexeme) heos

theorem lexemes_of_finished (h : lexer.Untouched) (hfinished : lexer.Finished) :
    lexer.lexemes = ([.bare .eos ""], none) :=
  lexemes_of_eos h hfinished.next rfl

/-- Outside of a list and of line breaks, a form is read, and a colon behind it waits. -/
theorem next_match {c : Char} {found : Match} (hpending : lexer.pending = [])
    (hmode : lexer.mode = .markup) (hinput : lexer.input = c :: text) (hc : c ≠ '\n')
    (hparenthesis : c ≠ '(') (hfound : first? (c :: text) = some found) :
    lexer.next = (.ok ⟨lexer.line, found.lexeme⟩,
      { lexer with
        input := found.rest
        pending := if found.colon then [lexer.token .colon] else [] }) := by
  have hblank : afterBlankLine? lexer.input = none := by
    rw [hinput]
    simp [afterBlankLine?, hc]
  have hscan : lexer.scanLine = lexer.readForm := by
    unfold scanLine
    rw [hinput, hmode]
    simp [hparenthesis]
  rw [next_eq_scanLine hpending hblank, hscan, readForm, hinput, hfound]
  simp [hpending, emit]

theorem next_form {c : Char} {found : Match} (hpending : lexer.pending = [])
    (hmode : lexer.mode = .markup) (hinput : lexer.input = c :: text) (hc : c ≠ '\n')
    (hparenthesis : c ≠ '(') (hfound : first? (c :: text) = some found)
    (hcolon : found.colon = false) :
    lexer.next = (.ok ⟨lexer.line, found.lexeme⟩, { lexer with input := found.rest }) := by
  rw [next_match hpending hmode hinput hc hparenthesis hfound, hcolon]
  simp [← hpending]

theorem next_list (hpending : lexer.pending = []) (hmode : lexer.mode = .markup)
    (hinput : lexer.input = '(' :: text) : lexer.next = lexer.readAttributes text := by
  rw [next_eq_scanLine hpending (by rw [hinput]; rfl), scanLine, hinput, hmode]
  rfl

/-- A line break says nothing that is a text. -/
theorem LineBreak.kind_ne_text (h : lexer.LineBreak text token after) : token.kind ≠ .text := by
  obtain ⟨followers, henters, -⟩ := h.enters
  intro htext
  generalize after.levels = levels at henters
  cases henters with
  | blank _ hkind => exact nomatch hkind.symm.trans htext
  | sibling _ _ hkind => exact nomatch hkind.symm.trans htext
  | deeper _ _ hlexeme => exact nomatch (congrArg Lexeme.kind hlexeme).symm.trans htext
  | shallower _ _ hkind => exact nomatch hkind.symm.trans htext

/-- Between statements, a text is what a form says. -/
theorem next_text (hmode : lexer.mode = .markup) (hpending : lexer.pending = [])
    (hnext : lexer.next = (.ok token, after)) (htext : token.kind = .text) :
    ∃ found, first? lexer.input = some found ∧ token.lexeme = found.lexeme
      ∧ after.input = found.rest := by
  unfold next at hnext
  rw [hpending] at hnext
  simp only [scan] at hnext
  split at hnext
  · unfold scanLine at hnext
    split at hnext
    · unfold readEnd at hnext
      split at hnext <;> cases hnext <;> cases htext
    · exact absurd htext (readLineBreak_lineBreak hnext).kind_ne_text
    · rw [hmode] at hnext
      dsimp only at hnext
      split at hnext
      · unfold readAttributes at hnext
        split at hnext <;> cases hnext
        cases htext
      · unfold readForm at hnext
        split at hnext
        · cases hnext
        · next found hfound =>
            cases hnext
            exact ⟨found, hfound, rfl, rfl⟩
  · next rest hblank =>
      obtain ⟨more, rfl⟩ := afterBlankLine?_break hblank
      rw [hmode] at hnext
      obtain ⟨text', line', hskip⟩ := skipBlankLines_break ('\n' :: more).length
        { lexer with input := '\n' :: more, line := lexer.line + 1 } rfl
      dsimp only at hnext
      rw [hmode] at hskip
      rw [hskip] at hnext
      exact absurd htext (readLineBreak_lineBreak hnext).kind_ne_text

/-- **A text that is alone is the line**, without its mark. -/
theorem line_of_lexemes (h : lexer.Untouched) (hmode : lexer.mode = .markup)
    (hpending : lexer.pending = [])
    (hlexemes : lexer.lexemes = ([.bare .text (String.ofList text), .bare .eos ""], none)) :
    lexer.input ≠ [] ∧ '\n' ∉ lexer.input ∧ unmarked lexer.input = text
      ∧ ∃ found, first? lexer.input = some found ∧ found.lexeme.kind = .text := by
  obtain ⟨token, after, hnext, hlexeme, hbehind⟩ := lexemes_eq_cons h hlexemes nofun
  have hkind : token.kind = .text := congrArg Lexeme.kind hlexeme
  obtain ⟨found, hfound, hsaid, hinput⟩ := next_text hmode hpending hnext hkind
  have hrest : found.rest = [] := hinput ▸ (finished_of_lexemes (h.next hnext) hbehind).input
  have htext : found.lexeme.kind = .text := hsaid ▸ hkind
  obtain ⟨hne, hline, hunmarked⟩ := of_textLine_whole (textLine_of_first? hfound htext) hrest
  refine ⟨hne, hline, ?_, found, hfound, htext⟩
  rw [hlexeme, hunmarked] at hsaid
  injection hsaid with _ hvalue
  exact (String.ofList_injective hvalue).symm

/-! ## An element with a list and a text -/

/-- Texts in which every parenthesis is closed, and none is that is not open. -/
def Matched (text : List Char) : Prop := depthAfter 0 text = some 0

instance (text : List Char) : Decidable (Matched text) :=
  inferInstanceAs (Decidable (_ = _))

theorem depthAfter_normalizeNewlines (depth : Nat) (text : List Char) :
    depthAfter depth (Text.normalizeNewlines text) = depthAfter depth text := by
  fun_induction Text.normalizeNewlines text generalizing depth with
  | case1 => rfl
  | case2 rest ih => simp [depthAfter, ih]
  | case3 rest _ ih => simp [depthAfter, ih]
  | case4 c rest _ _ ih => cases depth <;> simp [depthAfter, ih]

theorem matched_normalizeNewlines : Matched (Text.normalizeNewlines text) ↔ Matched text := by
  rw [Matched, depthAfter_normalizeNewlines, Matched]

/-- Where a list ends decides what is left for the text: only at its own end is it the text
    behind a space. -/
theorem list_end {list line body content : List Char}
    (hsplit : list ++ ')' :: ' ' :: line = body ++ ')' :: content)
    (hunmarked : unmarked content = line) : body = list ∧ content = ' ' :: line := by
  have hle : line.length ≤ content.length := hunmarked ▸ (unmarked_suffix content).length_le
  obtain ⟨hmark, hspace⟩ := length_unmarked content
  rw [hunmarked] at hmark hspace
  rcases List.append_eq_append_iff.mp hsplit with ⟨more, hbody, hrest⟩ | ⟨more, hlist, hrest⟩
  · rcases more with - | ⟨c, - | ⟨d, more⟩⟩
    · exact ⟨by rw [hbody, List.append_nil], ((List.cons.inj hrest).2).symm⟩
    · exact nomatch (List.cons.inj (List.cons.inj hrest).2).1
    · -- the list ends inside the text
      have hline : line = more ++ ')' :: content := (List.cons.inj (List.cons.inj hrest).2).2
      rw [hline, List.length_append, List.length_cons] at hle
      omega
  · rcases more with - | ⟨c, more⟩
    · exact ⟨by rw [hlist, List.append_nil], (List.cons.inj hrest).2⟩
    · -- the list ends too early, and its own end is left over
      have hcontent : content = more ++ ')' :: ' ' :: line := (List.cons.inj hrest).2
      rw [hcontent, List.length_append, List.length_cons, List.length_cons] at hmark hspace
      have hnil : more = [] := List.length_eq_zero_iff.mp (by omega)
      rw [hnil] at hspace
      exact absurd (hspace nofun) (by simp)

/-- A lexer behind the name of an element, before a list and a text. -/
structure AtList (lexer : Lexer) (list line : List Char) : Prop where
  untouched : lexer.Untouched
  mode : lexer.mode = .markup
  levels : lexer.levels = []
  pending : lexer.pending = []
  input : lexer.input = '(' :: (list ++ ')' :: ' ' :: line)

variable {list line content : List Char}

/-- If the list and the text come out as they should, the list ends where it should. -/
theorem AtList.matched (h : lexer.AtList list line) (hreturn : '\r' ∉ lexer.input)
    (hline : line = Text.normalizeNewlines content) {attributes : Attributes}
    (hlexemes : lexer.lexemes
      = ([.attrs attributes false, .bare .text (String.ofList content), .bare .eos ""], none)) :
    Matched list ∧ IsText content := by
  obtain ⟨token, after, hnext, hlexeme, htext⟩ := lexemes_eq_cons h.untouched hlexemes nofun
  have huntouched := h.untouched.next hnext
  rw [next_list h.pending h.mode h.input] at hnext
  unfold readAttributes at hnext
  split at hnext
  · cases hnext
  · next body left hgroup =>
      obtain ⟨hmatched, hsplit⟩ := group?_eq_some_iff.mp hgroup
      cases hnext
      have hopen : (left.head? == some '/') = false := by injection hlexeme
      obtain ⟨-, hnewline, hunmarked, found, hfound, hkind⟩ :=
        line_of_lexemes huntouched h.mode h.pending htext
      simp only [hopen, Bool.false_eq_true, if_false] at hnewline hunmarked hfound
      have hmem : ∀ c ∈ content, c ∈ left := fun c hc =>
        (unmarked_suffix left).mem (hunmarked ▸ hc)
      have hleft : left <:+ lexer.input := by
        rw [h.input, hsplit]
        exact ((List.suffix_cons ')' left).trans (List.suffix_append body _)).trans
          (List.suffix_cons '(' _)
      -- what was said has no carriage return, so nothing was made a line feed
      have hplain : '\r' ∉ content := fun hc => hreturn (hleft.mem (hmem _ hc))
      rw [Text.normalizeNewlines_of_not_mem content hplain] at hline
      obtain ⟨rfl, rfl⟩ := list_end hsplit (hunmarked.trans hline.symm)
      refine ⟨hmatched, ?_, fun hc => hnewline (hmem _ hc), hplain, ?_⟩
      · rintro rfl
        rw [hline] at hunmarked
        exact nomatch hunmarked
      · rw [← hline, ← comment_space_eq_none_iff, Option.eq_none_iff_forall_ne_some]
        intro remark hremark
        rw [first?_space, hremark] at hfound
        obtain rfl := Option.some.inj hfound
        exact nomatch (comment_hasKind hremark).symm.trans hkind

/-- A list whose parentheses match is read, and then the text behind it. -/
theorem AtList.lexemes_eq (h : lexer.AtList list line) (hmatched : Matched list)
    (htext : IsText line) :
    lexer.lexemes
      = ([.attrs (Attribute.parseList list lexer.colons) false, .bare .text (String.ofList line),
          .bare .eos ""], none) := by
  obtain ⟨hne, hnewline, -, hcomment⟩ := htext
  have hgroup : group? 0 (list ++ ')' :: ' ' :: line) = some (list, ' ' :: line) :=
    group?_eq_some_iff.mpr ⟨hmatched, rfl⟩
  have hlist : lexer.next
      = (.ok ⟨lexer.line, .attrs (Attribute.parseList list lexer.colons) false⟩,
          { lexer with input := ' ' :: line, line := lexer.line + Text.countNewlines list }) := by
    rw [next_list h.pending h.mode h.input, readAttributes, hgroup]
    rfl
  have hbehind := h.untouched.next hlist
  rw [lexemes_of_next h.untouched hlist nofun]
  have hunmarked : unmarked (' ' :: line) = line := by
    obtain ⟨c, rest, rfl⟩ := List.exists_cons_of_ne_nil hne
    rfl
  have hfound : first? (' ' :: line)
      = some { lexeme := .bare .text (String.ofList line), rest := [] } := by
    rw [first?_space, comment_space_eq_none_iff.mpr hcomment,
      textLine_eq_some (List.cons_ne_nil _ _) (by simpa using hnewline), hunmarked]
    rfl
  have hread : ({ lexer with
      input := ' ' :: line, line := lexer.line + Text.countNewlines list } : Lexer).next = _ :=
    next_form h.pending h.mode rfl (by decide) (by decide) hfound rfl
  rw [lexemes_of_next hbehind hread nofun,
    lexemes_of_finished (hbehind.next hread) ⟨rfl, h.levels, h.pending⟩]

/-- An element with a list and a text behind it. -/
def listedElement (name : ElementName) (list text : List Char) : String :=
  String.ofList (name.text.toList ++ '(' :: (list ++ ')' :: ' ' :: text))

/-- The element, the attributes that the list has by itself, and the text. -/
def listedLexemes (name : ElementName) (list text : List Char) (colons : Bool) : List Lexeme :=
  [.tag name.text false, .attrs (Attribute.parseList (Text.normalizeNewlines list) colons) false,
   .bare .text (String.ofList text), .bare .eos ""]

theorem input_listedElement (name : ElementName) (list text : List Char) (colons : Bool) :
    (ofSource (listedElement name list text) colons).input
      = name.text.toList
        ++ '(' :: (Text.normalizeNewlines list ++ ')' :: ' ' :: Text.normalizeNewlines text) := by
  have hname : '\r' ∉ name.text.toList := fun hmem =>
    absurd (name.inside _ hmem) (by decide)
  show Text.normalizeNewlines (String.toList (String.ofList _)) = _
  rw [String.toList_ofList, Text.normalizeNewlines_append (by decide),
    Text.normalizeNewlines_of_not_mem _ hname]
  simp [Text.normalizeNewlines, Text.normalizeNewlines_append]

/-- The name is read, and leaves the list. -/
theorem lexemes_listedElement (name : ElementName) (list text : List Char) (colons : Bool) :
    ∃ lexer : Lexer,
      lexer.AtList (Text.normalizeNewlines list) (Text.normalizeNewlines text)
        ∧ lexer.colons = colons ∧ '\r' ∉ lexer.input
        ∧ (ofSource (listedElement name list text) colons).lexemes
          = (.tag name.text false :: lexer.lexemes.1, lexer.lexemes.2) := by
  obtain ⟨c, rest, hname, hc⟩ := name.exists_cons
  have hinput := input_listedElement name list text colons
  have hreturn := Text.not_mem_normalizeNewlines (listedElement name list text).toList
  rw [show Text.normalizeNewlines _ = _ from hinput, List.mem_append, not_or] at hreturn
  have hfound := name.first? (endsName_parenthesis
    (Text.normalizeNewlines list ++ ')' :: ' ' :: Text.normalizeNewlines text))
  rw [hname, List.cons_append] at hinput hfound
  have hnewline : c ≠ '\n' := by
    rintro rfl
    exact absurd hc (by decide)
  have hparenthesis : c ≠ '(' := by
    rintro rfl
    exact absurd hc (by decide)
  have huntouched := untouched_ofSource (listedElement name list text) colons
  have hnext := next_form rfl rfl hinput hnewline hparenthesis hfound rfl
  exact ⟨_, ⟨huntouched.next hnext, rfl, rfl, rfl, rfl⟩, rfl, hreturn.2,
    lexemes_of_next huntouched hnext nofun⟩

/-- **The list ends where it was written to end exactly when its parentheses match**, in string
    literals and outside of them, and text follows it. -/
theorem lexemes_list_iff (name : ElementName) (list text : List Char) (colons : Bool) :
    (ofSource (listedElement name list text) colons).lexemes
        = (listedLexemes name list text colons, none)
      ↔ Matched list ∧ IsText text := by
  obtain ⟨lexer, hlist, rfl, hreturn, hlexemes⟩ := lexemes_listedElement name list text colons
  rw [hlexemes, ← @matched_normalizeNewlines list]
  constructor
  · intro hsaid
    have htokens := (List.cons.inj (congrArg Prod.fst hsaid)).2
    have hfault : lexer.lexemes.2 = none := congrArg Prod.snd hsaid
    exact hlist.matched hreturn rfl (Prod.ext htokens hfault)
  · rintro ⟨hmatched, htext⟩
    have hplain : Text.normalizeNewlines text = text :=
      Text.normalizeNewlines_of_not_mem text htext.2.2.1
    rw [hlist.lexemes_eq hmatched (hplain.symm ▸ htext), hplain]
    rfl

/-- The name `a`. -/
def elementA : ElementName where
  text := "a"
  starts := by decide
  inside := List.all_eq_true.mp (by decide)
  uncolonned := by decide
  free := by decide

/-- **A parenthesis in a string literal moves the end of the list**: the scanner of attributes
    takes the literal whole, and the lexer ends the list in the middle of it. -/
theorem parenthesisInLiteral_misread :
    (Attribute.parseList "b=\")\"".toList).entries = [("b", { value := .text "\")\"" })]
      ∧ IsText "x".toList
      ∧ (ofSource (listedElement elementA "b=\")\"".toList "x".toList)).lexemes
        = ([.tag "a" false, .attrs (Attribute.parseList "b=\"".toList) false,
            .bare .text "\") x", .bare .eos ""], none)
      ∧ (ofSource (listedElement elementA "b=\")\"".toList "x".toList)).lexemes
        ≠ (listedLexemes elementA "b=\")\"".toList "x".toList false, none) := by
  decide +kernel

end Lexer

end Stencil
