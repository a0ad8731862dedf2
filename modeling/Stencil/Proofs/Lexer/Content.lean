import Stencil.Lexer.Step
import Stencil.Proofs.Lexer.Shortening

/-! # Content — what the forms say, and that one of them always does

    A form gives lexemes of one kind (`HasKind`).  The kinds fall in two: those that
    make up the structure of the stream (its end, line breaks and levels) come
    from the ends of lines alone, and the forms give others: `first?_kind`.
    Attribute lists and colons are read apart from the forms: `first?_formed`.  A
    line that is not empty has a form, since text takes what no other form wants:
    `first?_line`. -/

namespace Stencil

/-- Whether a kind belongs to the structure of the stream: its end, line breaks and levels. -/
def TokenKind.isStructural : TokenKind → Bool
  | .eos | .newline | .indent | .outdent => true
  | _ => false

/-- Whether a form gives tokens of a kind. -/
def TokenKind.isFormed : TokenKind → Bool
  | .attrs | .colon => false
  | kind => !kind.isStructural

theorem TokenKind.not_isStructural_of_isFormed {kind : TokenKind} (h : kind.isFormed = true) :
    kind.isStructural = false := by
  cases kind <;> first | rfl | exact nomatch h

namespace Form

/-- A form that gives lexemes of one kind. -/
def HasKind (kind : TokenKind) (form : Form) : Prop :=
  ∀ ⦃text : List Char⦄ ⦃found : Match⦄, form text = some found → found.lexeme.kind = kind

/-- The first of two forms says what both say. -/
theorem HasKind.orElse {kind : TokenKind} {form other : Form} (h : HasKind kind form)
    (hother : HasKind kind other) : HasKind kind fun text => form text <|> other text := by
  intro text found hfound
  rcases cases_orElse hfound with hmatch | hmatch
  · exact h hmatch
  · exact hother hmatch

theorem keywordLine_hasKind (word : String) {lexeme : String → Lexeme} {kind : TokenKind}
    (hlexeme : ∀ line, (lexeme line).kind = kind) : HasKind kind (keywordLine word lexeme) := by
  intro text found h
  simp only [keywordLine, Option.bind_eq_bind, Option.bind_eq_some_iff, Option.pure_def,
    Option.some.injEq, Prod.exists] at h
  obtain ⟨after, -, line, rest, -, rfl⟩ := h
  exact hlexeme _

theorem caseHead_hasKind : HasKind .case caseHead := keywordLine_hasKind "case" fun _ => rfl

theorem appendBlock_hasKind : HasKind .block appendBlock :=
  keywordLine_hasKind "append" fun _ => rfl

theorem prependBlock_hasKind : HasKind .block prependBlock :=
  keywordLine_hasKind "prepend" fun _ => rfl

theorem includePath_hasKind : HasKind .include includePath :=
  keywordLine_hasKind "include" fun _ => rfl

theorem whileHead_hasKind : HasKind .code whileHead := keywordLine_hasKind "while" fun _ => rfl

theorem signed_hasKind (sign : Char) (p : Char → Bool) (kind : TokenKind) :
    HasKind kind (signed sign p kind) := by
  intro text found h
  simp only [signed, Option.bind_eq_bind, Option.bind_eq_some_iff, Option.pure_def,
    Option.some.injEq, Prod.exists] at h
  obtain ⟨after, -, name, rest, -, rfl⟩ := h
  rfl

theorem conditionOf_hasKind (word : String) (code : String → String) :
    HasKind .code (conditionOf word code) := by
  intro text found h
  simp only [conditionOf, Option.bind_eq_bind, Option.bind_eq_some_iff, Option.pure_def,
    Option.some.injEq] at h
  obtain ⟨after, -, rfl⟩ := h
  rfl

theorem signedCode_hasKind (sign : String) (buffer escape : Bool) :
    HasKind .code (signedCode sign buffer escape) := by
  intro text found h
  simp only [signedCode, Option.bind_eq_bind, Option.bind_eq_some_iff, Option.pure_def,
    Option.some.injEq, Prod.exists] at h
  obtain ⟨after, -, line, rest, -, rfl⟩ := h
  rfl

theorem yieldMark_hasKind : HasKind .yield yieldMark := by
  intro text found h
  simp only [yieldMark, Option.bind_eq_bind, Option.bind_eq_some_iff, Option.pure_def,
    Option.some.injEq] at h
  obtain ⟨after, -, rfl⟩ := h
  rfl

theorem doctype_hasKind : HasKind .doctype doctype := by
  intro text found h
  simp only [doctype, Option.bind_eq_bind, Option.bind_eq_some_iff, Option.pure_def,
    Option.some.injEq] at h
  obtain ⟨after, -, rfl⟩ := h
  rfl

theorem interpolatedTag_hasKind : HasKind .interpolation interpolatedTag := by
  intro text found h
  simp only [interpolatedTag, Option.bind_eq_bind, Option.bind_eq_some_iff, Option.pure_def] at h
  obtain ⟨after, -, h⟩ := h
  split at h
  · obtain rfl := Option.some.inj h
    rfl
  · cases h

theorem whenArm_hasKind : HasKind .when whenArm := by
  intro text found h
  simp only [whenArm, Option.bind_eq_bind, Option.bind_eq_some_iff, Option.pure_def,
    Option.some.injEq, Prod.exists] at h
  obtain ⟨after, -, expression, rest, -, rfl⟩ := h
  rfl

theorem defaultArm_hasKind : HasKind .default defaultArm := by
  intro text found h
  simp only [defaultArm, Option.bind_eq_bind, Option.bind_eq_some_iff, Option.pure_def,
    Option.some.injEq] at h
  obtain ⟨after, -, rfl⟩ := h
  rfl

theorem extendsPath_hasKind : HasKind .extends extendsPath :=
  HasKind.orElse (keywordLine_hasKind "extends" fun _ => rfl)
    (keywordLine_hasKind "extend" fun _ => rfl)

theorem namedBlock_hasKind : HasKind .block namedBlock := by
  intro text found h
  simp only [namedBlock, Option.bind_eq_bind, Option.bind_eq_some_iff, Option.pure_def,
    Option.some.injEq] at h
  obtain ⟨after, -, rfl⟩ := h
  rfl

theorem mixinHead_hasKind : HasKind .mixin mixinHead := by
  intro text found h
  simp only [mixinHead, Option.bind_eq_bind, Option.bind_eq_some_iff, Option.pure_def,
    Prod.exists] at h
  obtain ⟨after, -, name, unnamed, -, h⟩ := h
  split at h
  · split at h
    all_goals
      obtain rfl := Option.some.inj h
      rfl
  · obtain rfl := Option.some.inj h
    rfl

theorem mixinCall_hasKind : HasKind .call mixinCall := by
  intro text found h
  simp only [mixinCall, Option.bind_eq_bind, Option.bind_eq_some_iff, Option.pure_def,
    Prod.exists] at h
  obtain ⟨after, -, name, unnamed, -, h⟩ := h
  split at h
  · split at h
    · split at h
      all_goals
        obtain rfl := Option.some.inj h
        rfl
    · obtain rfl := Option.some.inj h
      rfl
  · obtain rfl := Option.some.inj h
    rfl

theorem conditional_hasKind : HasKind .code conditional :=
  (conditionOf_hasKind "if" _).orElse ((conditionOf_hasKind "unless" _).orElse
    ((conditionOf_hasKind "else if" _).orElse (conditionOf_hasKind "else" _)))

theorem eachHead_hasKind : HasKind .each eachHead := by
  intro text found h
  simp only [eachHead, Option.bind_eq_bind, Option.bind_eq_some_iff, Option.pure_def] at h
  obtain ⟨after, -, h⟩ := h
  split at h
  · simp at h
  · simp only [Option.bind_eq_some_iff, Option.some.injEq, Prod.exists] at h
    obtain ⟨name, unnamed, -, source, rest, -, rfl⟩ := h
    rfl

theorem assignment_hasKind : HasKind .code assignment := by
  intro text found h
  simp only [assignment, Option.bind_eq_bind, Option.bind_eq_some_iff, Option.pure_def,
    Prod.exists] at h
  obtain ⟨name, unnamed, -, h⟩ := h
  split at h
  · simp at h
  · simp only [Option.bind_eq_some_iff, Option.some.injEq, Prod.exists] at h
    obtain ⟨after, -, value, rest, -, rfl⟩ := h
    rfl

theorem tagName_hasKind : HasKind .tag tagName := by
  intro text found h
  simp only [tagName] at h
  split at h
  · split at h
    all_goals
      obtain rfl := Option.some.inj h
      rfl
  · cases h

theorem codeLine_hasKind : HasKind .code codeLine :=
  (signedCode_hasKind "!=" true false).orElse
    ((signedCode_hasKind "=" true true).orElse (signedCode_hasKind "-" false false))

theorem comment_hasKind : HasKind .comment comment := by
  intro text found h
  simp only [comment, Option.bind_eq_bind, Option.bind_eq_some_iff, Option.pure_def,
    Option.some.injEq] at h
  obtain ⟨after, -, rfl⟩ := h
  rfl

theorem textLine_hasKind : HasKind .text textLine := by
  intro text found h
  simp only [textLine, Option.bind_eq_bind, Option.bind_eq_some_iff, Option.pure_def,
    Option.some.injEq, Prod.exists] at h
  obtain ⟨line, rest, -, rfl⟩ := h
  rfl

/-- A form gives content of one kind, and text only if it is the form of a line of text. -/
def GivesContent (form : Form) : Prop :=
  ∃ kind : TokenKind,
    HasKind kind form ∧ kind.isFormed = true ∧ (kind = .text → form = textLine)

theorem HasKind.givesContent {kind : TokenKind} {form : Form} (h : HasKind kind form)
    (hformed : kind.isFormed = true) (hne : kind ≠ .text) : GivesContent form :=
  ⟨kind, h, hformed, fun htext => absurd htext hne⟩

/-- **The forms give content alone**, and text is said by the last of them only. -/
theorem ordered_givesContent : ∀ form ∈ ordered, GivesContent form := by
  simp only [ordered, List.forall_mem_cons]
  exact ⟨yieldMark_hasKind.givesContent rfl (by decide),
    doctype_hasKind.givesContent rfl (by decide),
    interpolatedTag_hasKind.givesContent rfl (by decide),
    caseHead_hasKind.givesContent rfl (by decide),
    whenArm_hasKind.givesContent rfl (by decide),
    defaultArm_hasKind.givesContent rfl (by decide),
    extendsPath_hasKind.givesContent rfl (by decide),
    appendBlock_hasKind.givesContent rfl (by decide),
    prependBlock_hasKind.givesContent rfl (by decide),
    namedBlock_hasKind.givesContent rfl (by decide),
    includePath_hasKind.givesContent rfl (by decide),
    mixinHead_hasKind.givesContent rfl (by decide),
    mixinCall_hasKind.givesContent rfl (by decide),
    conditional_hasKind.givesContent rfl (by decide),
    eachHead_hasKind.givesContent rfl (by decide),
    whileHead_hasKind.givesContent rfl (by decide),
    assignment_hasKind.givesContent rfl (by decide),
    tagName_hasKind.givesContent rfl (by decide),
    (signed_hasKind ':' _ _).givesContent rfl (by decide),
    codeLine_hasKind.givesContent rfl (by decide),
    (signed_hasKind '#' _ _).givesContent rfl (by decide),
    (signed_hasKind '.' _ _).givesContent rfl (by decide),
    comment_hasKind.givesContent rfl (by decide),
    ⟨_, textLine_hasKind, rfl, fun _ => rfl⟩, fun form h => absurd h List.not_mem_nil⟩

theorem first?_formed {text : List Char} {found : Match} (h : first? text = some found) :
    found.lexeme.kind.isFormed = true := by
  obtain ⟨form, hform, hmatch⟩ := List.exists_of_findSome?_eq_some h
  obtain ⟨kind, hhas, hformed, -⟩ := ordered_givesContent form hform
  rw [hhas hmatch]
  exact hformed

/-- Text is what the form of a line of text finds. -/
theorem textLine_of_first? {text : List Char} {found : Match} (h : first? text = some found)
    (hkind : found.lexeme.kind = .text) : textLine text = some found := by
  obtain ⟨form, hform, hmatch⟩ := List.exists_of_findSome?_eq_some h
  obtain ⟨kind, hhas, -, htext⟩ := ordered_givesContent form hform
  obtain rfl := htext ((hhas hmatch).symm.trans hkind)
  exact hmatch

theorem first?_kind {text : List Char} {found : Match} (h : first? text = some found) :
    found.lexeme.kind.isStructural = false :=
  TokenKind.not_isStructural_of_isFormed (first?_formed h)

/-- **Every line that is not empty has a form**: text, if no other one matches. -/
theorem first?_line {c : Char} (hc : c ≠ '\n') (text : List Char) :
    ∃ found, first? (c :: text) = some found := by
  have hrun : run? inLine (c :: text)
      = some (c :: text.takeWhile inLine, text.dropWhile inLine) := by
    have hin : inLine c = true := bne_iff_ne.mpr hc
    simp only [run?, List.takeWhile_cons_of_pos hin, List.dropWhile_cons_of_pos hin]
    rfl
  rw [← Option.isSome_iff_exists, first?, List.findSome?_isSome_iff]
  refine ⟨textLine, by simp [ordered], ?_⟩
  simp [textLine, hrun]

end Form

end Stencil
