import Stencil.Proofs.Lexer.Content
import Stencil.Proofs.Lexer.Lines

/-! # Tails — what stands behind the line of a form

    A form looks at the line that it starts in and at nothing behind it.  So it
    finds the same in a text whatever tail is put behind, as long as the tail
    ends the line, and it leaves what it left before with the tail behind it
    (`IgnoresTail`).  The pieces that forms are made of do so too: a word has no
    line feed in it, and no run takes one. -/

namespace Stencil

variable {text tail : List Char}

/-- What a piece of a form found, with a tail behind the text that is left. -/
def withTail {β : Type} (tail : List Char) (found : β × List Char) : β × List Char :=
  (found.1, found.2 ++ tail)

/-- A match with a tail behind the text that is left. -/
def Match.withTail (tail : List Char) (found : Match) : Match :=
  { found with rest := found.rest ++ tail }

section Runs

variable {p : Char → Bool}

theorem takeWhile_stopped (h : Stops p tail) (text : List Char) :
    (text ++ tail).takeWhile p = text.takeWhile p := by
  induction text with
  | nil => exact takeWhile_stops h
  | cons c text ih =>
      rw [List.cons_append, List.takeWhile_cons, List.takeWhile_cons, ih]

variable (hp : p '\n' = false) (htail : EndsLine tail)
include hp htail

theorem takeWhile_tail (text : List Char) : (text ++ tail).takeWhile p = text.takeWhile p :=
  takeWhile_stopped (htail.stops hp) text

theorem dropWhile_tail (text : List Char) :
    (text ++ tail).dropWhile p = text.dropWhile p ++ tail := by
  induction text with
  | nil => exact dropWhile_stops (htail.stops hp)
  | cons c text ih =>
      rw [List.cons_append, List.dropWhile_cons, List.dropWhile_cons, ih]
      split <;> rfl

end Runs

section Pieces

variable (htail : EndsLine tail)
include htail

/-- A character at the front is that of the text, unless it ends the line. -/
theorem head?_tail {c : Char} (hc : c ≠ '\n') (text : List Char) :
    ((text ++ tail).head? == some c) = (text.head? == some c) := by
  cases text with
  | nil =>
      rw [List.nil_append, Bool.eq_iff_iff, beq_iff_eq, beq_iff_eq]
      exact ⟨fun hhead => absurd (htail c hhead) hc, nofun⟩
  | cons d text => rfl

theorem dropSpaces_tail (text : List Char) :
    Text.dropSpaces (text ++ tail) = Text.dropSpaces text ++ tail := dropWhile_tail rfl htail text

theorem splitLine_tail (text : List Char) :
    Text.splitLine (text ++ tail) = withTail tail (Text.splitLine text) := by
  rw [Text.splitLine, takeWhile_tail rfl htail, dropWhile_tail rfl htail]
  rfl

/-- A character is at the front of the text, or at the front with no tail behind the text. -/
theorem front_tail {c : Char} (hc : c ≠ '\n') (text : List Char) :
    (∃ after, text = c :: after)
      ∨ (∀ after, text = c :: after → False) ∧ ∀ after, text ++ tail = c :: after → False := by
  cases text with
  | nil =>
      refine .inr ⟨fun _ => nofun, fun after htext => hc (htail c ?_)⟩
      rw [← List.nil_append tail, htext]
      rfl
  | cons d text =>
      by_cases hd : d = c
      · exact .inl ⟨text, hd ▸ rfl⟩
      · exact .inr ⟨fun _ htext => hd (List.cons.inj htext).1,
          fun _ htext => hd (List.cons.inj htext).1⟩

end Pieces

namespace Form

/-! ## The pieces -/

section Pieces

variable (htail : EndsLine tail)
include htail

theorem afterWord?_tail {word : List Char} (hword : '\n' ∉ word) : ∀ text : List Char,
    afterWord? word (text ++ tail) = (afterWord? word text).map (· ++ tail) := by
  induction word with
  | nil => exact fun _ => rfl
  | cons w word ih =>
      rw [List.mem_cons, not_or] at hword
      intro text
      cases text with
      | nil =>
          cases tail with
          | nil => rfl
          | cons c tail =>
              obtain rfl : c = '\n' := htail c rfl
              exact if_neg (by simpa using fun heq => hword.1 heq.symm)
      | cons c text =>
          rw [List.cons_append, afterWord?, afterWord?, ih hword.2]
          split <;> rfl

theorem atWordEnd_tail (text : List Char) : atWordEnd (text ++ tail) = atWordEnd text := by
  cases text with
  | nil =>
      cases tail with
      | nil => rfl
      | cons c tail =>
          obtain rfl : c = '\n' := htail c rfl
          rfl
  | cons c text => rfl

theorem afterWholeWord?_tail (word : String) (hword : '\n' ∉ word.toList) (text : List Char) :
    afterWholeWord? word (text ++ tail) = (afterWholeWord? word text).map (· ++ tail) := by
  rw [afterWholeWord?, afterWord?_tail htail hword, afterWholeWord?]
  cases afterWord? word.toList text with
  | none => rfl
  | some after =>
      rw [Option.map_some, Option.filter_some, Option.filter_some, atWordEnd_tail htail]
      split <;> rfl

theorem run?_tail {p : Char → Bool} (hp : p '\n' = false) (text : List Char) :
    run? p (text ++ tail) = (run? p text).map (withTail tail) := by
  simp only [run?, takeWhile_tail hp htail, dropWhile_tail hp htail]
  split <;> rfl

theorem spacedRun?_tail {p : Char → Bool} (least : Nat) (hp : p '\n' = false) (text : List Char) :
    spacedRun? least p (text ++ tail) = (spacedRun? least p text).map (withTail tail) := by
  have hspaces : (text ++ tail).takeWhile (· == ' ') = text.takeWhile (· == ' ') :=
    takeWhile_tail rfl htail text
  simp only [spacedRun?, hspaces, dropSpaces_tail htail, run?_tail htail hp]
  split
  · rfl
  · cases run? p (Text.dropSpaces text) with
    | some found => rfl
    | none =>
        simp only [Option.map_none]
        split <;> rfl

theorem optionalColon_tail (text : List Char) :
    optionalColon (text ++ tail) = withTail tail (optionalColon text) := by
  rcases front_tail htail (c := ':') (by decide) text with ⟨after, rfl⟩ | ⟨hfront, hfront'⟩
  · exact congrArg (Prod.mk true) (dropSpaces_tail htail after)
  · rw [optionalColon.eq_2 _ hfront, optionalColon.eq_2 _ hfront']
    rfl

theorem dropSemicolon_tail (text : List Char) :
    dropSemicolon (text ++ tail) = dropSemicolon text ++ tail := by
  rcases front_tail htail (c := ';') (by decide) text with ⟨after, rfl⟩ | ⟨hfront, hfront'⟩
  · exact dropSpaces_tail htail after
  · rw [dropSemicolon.eq_2 _ hfront, dropSemicolon.eq_2 _ hfront']

theorem dropDash_tail (text : List Char) : dropDash (text ++ tail) = dropDash text ++ tail := by
  rcases front_tail htail (c := '-') (by decide) text with ⟨after, rfl⟩ | ⟨hfront, hfront'⟩
  · exact dropSpaces_tail htail after
  · rw [dropDash.eq_2 _ hfront, dropDash.eq_2 _ hfront']

end Pieces

/-! ## Forms -/

/-- A form that finds the same whatever stands behind its line. -/
def IgnoresTail (form : Form) : Prop :=
  ∀ ⦃tail : List Char⦄, EndsLine tail → ∀ text : List Char,
    form (text ++ tail) = (form text).map (Match.withTail tail)

theorem map_orElse {α β : Type} (f : α → β) (first other : Option α) :
    (first.map f <|> other.map f) = (first <|> other).map f := by
  cases first <;> rfl

/-- The first of two forms ignores the tail if both do. -/
theorem IgnoresTail.orElse {form other : Form} (h : IgnoresTail form)
    (hother : IgnoresTail other) : IgnoresTail fun text => form text <|> other text := by
  intro tail htail text
  dsimp only
  rw [h htail, hother htail, map_orElse]

theorem keywordLine_ignoresTail {word : String} (hword : '\n' ∉ word.toList)
    (lexeme : String → Lexeme) : IgnoresTail (keywordLine word lexeme) := by
  intro tail htail text
  simp only [keywordLine, spacedLine?, afterWord?_tail htail hword]
  cases afterWord? word.toList text with
  | none => rfl
  | some after =>
      simp only [Option.map_some, Option.bind_eq_bind, Option.bind_some,
        spacedRun?_tail (p := inLine) htail 1 rfl]
      cases spacedRun? 1 inLine after <;> rfl

theorem signed_ignoresTail {sign : Char} {p : Char → Bool} (hsign : '\n' ∉ [sign])
    (hp : p '\n' = false) (kind : TokenKind) : IgnoresTail (signed sign p kind) := by
  intro tail htail text
  simp only [signed, afterWord?_tail htail hsign]
  cases afterWord? [sign] text with
  | none => rfl
  | some after =>
      simp only [Option.map_some, Option.bind_eq_bind, Option.bind_some, run?_tail htail hp]
      cases run? p after <;> rfl

theorem conditionOf_ignoresTail {word : String} (hword : '\n' ∉ word.toList)
    (code : String → String) : IgnoresTail (conditionOf word code) := by
  intro tail htail text
  simp only [conditionOf, afterWholeWord?_tail htail word hword]
  cases afterWholeWord? word text with
  | none => rfl
  | some after =>
      simp only [Option.map_some, Option.bind_eq_bind, Option.bind_some, splitLine_tail htail]
      rfl

theorem signedCode_ignoresTail {sign : String} (hsign : '\n' ∉ sign.toList)
    (buffer escape : Bool) : IgnoresTail (signedCode sign buffer escape) := by
  intro tail htail text
  simp only [signedCode, afterWord?_tail htail hsign]
  cases afterWord? sign.toList text with
  | none => rfl
  | some after =>
      simp only [Option.map_some, Option.bind_eq_bind, Option.bind_some,
        run?_tail (p := inLine) htail rfl]
      cases run? inLine after <;> rfl

/-! ### Composition -/

theorem yieldMark_ignoresTail : IgnoresTail yieldMark := by
  intro tail htail text
  simp only [yieldMark, afterWholeWord?_tail htail "yield" (by decide)]
  cases afterWholeWord? "yield" text with
  | none => rfl
  | some after =>
      simp only [Option.map_some, Option.bind_eq_bind, Option.bind_some, dropSpaces_tail htail]
      rfl

theorem extendsPath_ignoresTail : IgnoresTail extendsPath :=
  (keywordLine_ignoresTail (by decide) _).orElse (keywordLine_ignoresTail (by decide) _)

theorem modeWord?_tail {tail : List Char} (htail : EndsLine tail) (text : List Char) :
    modeWord? (text ++ tail) = (modeWord? text).map (withTail tail) := by
  have hspaced : ∀ mode : BlockMode, (do
      let after ← afterWord? mode.name.toList (text ++ tail)
      if after.head? == some ' ' then some (mode, Text.dropSpaces after) else none)
      = Option.map (withTail tail) (do
        let after ← afterWord? mode.name.toList text
        if after.head? == some ' ' then some (mode, Text.dropSpaces after) else none) := by
    intro mode
    have hname : '\n' ∉ mode.name.toList := by cases mode <;> decide
    rw [afterWord?_tail htail hname]
    cases afterWord? mode.name.toList text with
    | none => rfl
    | some after =>
        simp only [Option.map_some, Option.bind_eq_bind, Option.bind_some,
          head?_tail (c := ' ') htail (by decide), dropSpaces_tail htail]
        split <;> rfl
  simp only [modeWord?, hspaced]
  exact map_orElse _ _ _

theorem namedBlock_ignoresTail : IgnoresTail namedBlock := by
  intro tail htail text
  simp only [namedBlock, afterWholeWord?_tail htail "block" (by decide)]
  cases afterWholeWord? "block" text with
  | none => rfl
  | some after =>
      simp only [Option.map_some, Option.bind_eq_bind, Option.bind_some, dropSpaces_tail htail,
        modeWord?_tail htail]
      cases modeWord? (Text.dropSpaces after) with
      | none =>
          simp only [Option.map_none, Option.getD_none, splitLine_tail htail]
          rfl
      | some moded =>
          simp only [Option.map_some, Option.getD_some, withTail, splitLine_tail htail]
          rfl

theorem uptoLastParen?_tail {tail : List Char} (htail : EndsLine tail) (text : List Char) :
    uptoLastParen? (text ++ tail) = (uptoLastParen? text).map (withTail tail) := by
  simp only [uptoLastParen?, splitLine_tail htail]
  rcases Text.splitLine text with ⟨line, after⟩
  simp only [withTail]
  cases line.reverse.dropWhile (· != ')') with
  | nil => rfl
  | cons paren inside =>
      rw [Option.map_some, withTail, List.append_assoc]

theorem uptoFirstParen?_tail {tail : List Char} (htail : EndsLine tail) (text : List Char) :
    uptoFirstParen? (text ++ tail) = (uptoFirstParen? text).map (withTail tail) := by
  simp only [uptoFirstParen?, takeWhile_tail (p := fun c => inLine c && c != ')') rfl htail,
    dropWhile_tail (p := fun c => inLine c && c != ')') rfl htail]
  rcases front_tail htail (c := ')') (by decide)
      (text.dropWhile fun c => inLine c && c != ')') with ⟨after, hafter⟩ | ⟨hfront, hfront'⟩
  · rw [hafter]
    rfl
  · split
    · next after hafter => exact (hfront' after hafter).elim
    · rfl

theorem mixinHead_ignoresTail : IgnoresTail mixinHead := by
  intro tail htail text
  have hmixin : '\n' ∉ "mixin".toList := by decide
  simp only [mixinHead, afterWord?_tail htail hmixin]
  cases afterWord? "mixin".toList text with
  | none => rfl
  | some after =>
      simp only [Option.map_some, Option.bind_eq_bind, Option.bind_some,
        spacedRun?_tail (p := Text.isNamePart) htail 1 (by decide)]
      cases spacedRun? 1 Text.isNamePart after with
      | none => rfl
      | some found =>
          simp only [Option.map_some, Option.bind_some, withTail, dropSpaces_tail htail]
          rcases front_tail htail (c := '(') (by decide) (Text.dropSpaces found.2)
            with ⟨inside, hinside⟩ | ⟨hfront, hfront'⟩
          · rw [hinside]
            simp only [List.cons_append, uptoLastParen?_tail htail]
            cases uptoLastParen? inside <;> rfl
          · split
            · next inside hinside => exact (hfront' inside hinside).elim
            · rfl

theorem mixinCall_ignoresTail : IgnoresTail mixinCall := by
  intro tail htail text
  have hplus : '\n' ∉ ['+'] := by decide
  simp only [mixinCall, afterWord?_tail htail hplus]
  cases afterWord? ['+'] text with
  | none => rfl
  | some after =>
      simp only [Option.map_some, Option.bind_eq_bind, Option.bind_some,
        run?_tail (p := Text.isNamePart) htail (by decide)]
      cases run? Text.isNamePart after with
      | none => rfl
      | some found =>
          simp only [Option.map_some, Option.bind_some, withTail, dropSpaces_tail htail]
          rcases front_tail htail (c := '(') (by decide) (Text.dropSpaces found.2)
            with ⟨inside, hinside⟩ | ⟨hfront, hfront'⟩
          · rw [hinside]
            simp only [List.cons_append, uptoFirstParen?_tail htail]
            cases uptoFirstParen? inside with
            | none => rfl
            | some args =>
                simp only [Option.map_some, withTail]
                split <;> rfl
          · split
            · next inside hinside => exact (hfront' inside hinside).elim
            · rfl

/-! ### Control -/

theorem whenArm_ignoresTail : IgnoresTail whenArm := by
  intro tail htail text
  have hwhen : '\n' ∉ "when".toList := by decide
  simp only [whenArm, afterWord?_tail htail hwhen]
  cases afterWord? "when".toList text with
  | none => rfl
  | some after =>
      simp only [Option.map_some, Option.bind_eq_bind, Option.bind_some,
        spacedRun?_tail (p := inWhen) htail 1 rfl]
      cases spacedRun? 1 inWhen after with
      | none => rfl
      | some found =>
          simp only [Option.map_some, Option.bind_some, withTail, optionalColon_tail htail]
          rfl

theorem defaultArm_ignoresTail : IgnoresTail defaultArm := by
  intro tail htail text
  simp only [defaultArm, afterWholeWord?_tail htail "default" (by decide)]
  cases afterWholeWord? "default" text with
  | none => rfl
  | some after =>
      simp only [Option.map_some, Option.bind_eq_bind, Option.bind_some, dropSpaces_tail htail,
        optionalColon_tail htail]
      rfl

theorem conditional_ignoresTail : IgnoresTail conditional :=
  (conditionOf_ignoresTail (by decide) _).orElse
    ((conditionOf_ignoresTail (by decide) _).orElse
      ((conditionOf_ignoresTail (by decide) _).orElse
        (conditionOf_ignoresTail (by decide) _)))

theorem loopKey_tail {tail : List Char} (htail : EndsLine tail) (text : List Char) :
    loopKey (text ++ tail) = ((loopKey text).1, (loopKey text).2 ++ tail) := by
  have hkey : loopKey? (text ++ tail) = (loopKey? text).map (withTail tail) := by
    have hcomma : '\n' ∉ [','] := by decide
    simp only [loopKey?, dropSpaces_tail htail, afterWord?_tail htail hcomma]
    cases afterWord? [','] (Text.dropSpaces text) with
    | none => rfl
    | some after =>
        simp only [Option.map_some, Option.bind_eq_bind, Option.bind_some, dropSpaces_tail htail,
          run?_tail (p := Text.isWord) htail (by decide)]
  rw [loopKey, hkey, loopKey]
  cases loopKey? text <;> rfl

theorem loopSource?_tail {tail : List Char} (htail : EndsLine tail) (text : List Char) :
    loopSource? (text ++ tail) = (loopSource? text).map (withTail tail) := by
  have hin : '\n' ∉ "in".toList := by decide
  simp only [loopSource?, head?_tail (c := ' ') htail (by decide), dropSpaces_tail htail,
    afterWord?_tail htail hin]
  split
  · cases afterWord? "in".toList (Text.dropSpaces text) with
    | none => rfl
    | some after =>
        simp only [Option.map_some, Option.bind_eq_bind, Option.bind_some,
          spacedRun?_tail (p := inLine) htail 0 rfl]
  · rfl

theorem eachHead_ignoresTail : IgnoresTail eachHead := by
  intro tail htail text
  have heach : '\n' ∉ "each".toList := by decide
  have hfor : '\n' ∉ "for".toList := by decide
  simp only [eachHead, dropDash_tail htail, afterWord?_tail htail heach,
    afterWord?_tail htail hfor, map_orElse]
  cases (afterWord? "each".toList (dropDash text) <|> afterWord? "for".toList (dropDash text)) with
  | none => rfl
  | some after =>
      simp only [Option.map_some, Option.bind_eq_bind, Option.bind_some, bne,
        head?_tail (c := ' ') htail (by decide), dropSpaces_tail htail,
        run?_tail (p := Text.isWord) htail (by decide)]
      split
      · rfl
      · cases run? Text.isWord (Text.dropSpaces after) with
        | none => rfl
        | some found =>
            simp only [Option.map_some, Option.bind_some, withTail, loopKey_tail htail,
              loopSource?_tail htail]
            cases loopSource? (loopKey found.2).2 <;> rfl

theorem assignment_ignoresTail : IgnoresTail assignment := by
  intro tail htail text
  have hequals : '\n' ∉ ['='] := by decide
  simp only [assignment, run?_tail (p := Text.isWord) htail (by decide)]
  cases run? Text.isWord text with
  | none => rfl
  | some found =>
      simp only [Option.map_some, Option.bind_eq_bind, Option.bind_some, withTail, bne,
        head?_tail (c := ' ') htail (by decide), dropSpaces_tail htail,
        afterWord?_tail htail hequals]
      split
      · rfl
      · cases afterWord? ['='] (Text.dropSpaces found.2) with
        | none => rfl
        | some after =>
            simp only [Option.map_some, Option.bind_some,
              spacedRun?_tail (p := inAssigned) htail 0 rfl]
            cases spacedRun? 0 inAssigned after with
            | none => rfl
            | some value =>
                simp only [Option.map_some, Option.bind_some, withTail, dropSemicolon_tail htail]
                rfl

theorem codeLine_ignoresTail : IgnoresTail codeLine :=
  (signedCode_ignoresTail (by decide) true false).orElse
    ((signedCode_ignoresTail (by decide) true true).orElse
      (signedCode_ignoresTail (by decide) false false))

/-! ### Markup -/

theorem doctype_ignoresTail : IgnoresTail doctype := by
  intro tail htail text
  have hmark : '\n' ∉ "!!!".toList := by decide
  simp only [doctype, afterWord?_tail htail hmark,
    afterWholeWord?_tail htail "doctype" (by decide), map_orElse]
  cases (afterWord? "!!!".toList text <|> afterWholeWord? "doctype" text) with
  | none => rfl
  | some after =>
      simp only [Option.map_some, Option.bind_eq_bind, Option.bind_some, dropSpaces_tail htail,
        splitLine_tail htail]
      rfl

theorem interpolatedTag_ignoresTail : IgnoresTail interpolatedTag := by
  intro tail htail text
  have hmark : '\n' ∉ "#\x7b".toList := by decide
  simp only [interpolatedTag, afterWord?_tail htail hmark]
  cases afterWord? "#\x7b".toList text with
  | none => rfl
  | some after =>
      simp only [Option.map_some, Option.bind_eq_bind, Option.bind_some,
        takeWhile_tail (p := fun c => inLine c && c != '}') rfl htail,
        dropWhile_tail (p := fun c => inLine c && c != '}') rfl htail]
      rcases front_tail htail (c := '}') (by decide)
          (after.dropWhile fun c => inLine c && c != '}') with ⟨rest, hrest⟩ | ⟨hfront, hfront'⟩
      · rw [hrest]
        rfl
      · split
        · next rest hrest => exact (hfront' rest hrest).elim
        · rfl

/-- A slash that closes an element is on its line. -/
theorem closed_tail (tail text : List Char) :
    (if text.head? == some '/' then (text ++ tail).tail else text ++ tail)
      = (if text.head? == some '/' then text.tail else text) ++ tail := by
  split
  · next hslash =>
      obtain ⟨after, rfl⟩ := List.head?_eq_some_iff.mp (beq_iff_eq.mp hslash)
      rfl
  · rfl

theorem tagName_ignoresTail : IgnoresTail tagName := by
  intro tail htail text
  have hfirst : (text ++ tail).head?.any Text.isWord = text.head?.any Text.isWord := by
    cases text with
    | nil =>
        cases tail with
        | nil => rfl
        | cons c tail =>
            obtain rfl : c = '\n' := htail c rfl
            rfl
    | cons c text => rfl
  have hname : inTagName '\n' = false := by decide
  simp only [tagName, hfirst, takeWhile_tail hname htail, dropWhile_tail hname htail,
    head?_tail (c := '/') htail (by decide), closed_tail tail, dropSpaces_tail htail]
  split
  · split <;> rfl
  · rfl

theorem comment_ignoresTail : IgnoresTail comment := by
  intro tail htail text
  have hmark : '\n' ∉ "//".toList := by decide
  simp only [comment, dropSpaces_tail htail, afterWord?_tail htail hmark]
  cases afterWord? "//".toList (Text.dropSpaces text) with
  | none => rfl
  | some after =>
      simp only [Option.map_some, Option.bind_eq_bind, Option.bind_some]
      rcases front_tail htail (c := '-') (by decide) after
        with ⟨hidden, rfl⟩ | ⟨hfront, hfront'⟩
      · simp only [List.cons_append, splitLine_tail htail]
        rfl
      · split
        · next hidden hhidden => exact (hfront' hidden hhidden).elim
        · simp only [splitLine_tail htail]
          rfl

theorem textLine_ignoresTail : IgnoresTail textLine := by
  intro tail htail text
  simp only [textLine, run?_tail (p := inLine) htail rfl]
  cases run? inLine text <;> rfl

/-- **No form looks behind the end of its line.** -/
theorem ordered_ignoreTail : ∀ form ∈ ordered, IgnoresTail form := by
  simp only [ordered, List.forall_mem_cons]
  exact ⟨yieldMark_ignoresTail, doctype_ignoresTail, interpolatedTag_ignoresTail,
    keywordLine_ignoresTail (by decide) _, whenArm_ignoresTail, defaultArm_ignoresTail,
    extendsPath_ignoresTail, keywordLine_ignoresTail (by decide) _,
    keywordLine_ignoresTail (by decide) _, namedBlock_ignoresTail,
    keywordLine_ignoresTail (by decide) _, mixinHead_ignoresTail, mixinCall_ignoresTail,
    conditional_ignoresTail, eachHead_ignoresTail, keywordLine_ignoresTail (by decide) _,
    assignment_ignoresTail, tagName_ignoresTail,
    signed_ignoresTail (by decide) (by decide) _, codeLine_ignoresTail,
    signed_ignoresTail (by decide) (by decide) _, signed_ignoresTail (by decide) (by decide) _,
    comment_ignoresTail, textLine_ignoresTail, List.forall_mem_nil _⟩

/-- **What a line says does not depend on the lines behind it.** -/
theorem first?_tail : IgnoresTail first? := by
  intro tail htail text
  have hfirst : ∀ forms : List Form, (∀ form ∈ forms, IgnoresTail form) →
      forms.findSome? (fun form => form (text ++ tail))
        = (forms.findSome? fun form => form text).map (Match.withTail tail) := by
    intro forms hforms
    induction forms with
    | nil => rfl
    | cons form forms ih =>
        obtain ⟨hform, hrest⟩ := List.forall_mem_cons.mp hforms
        rw [List.findSome?_cons, List.findSome?_cons, hform htail, ih hrest]
        cases form text <;> rfl
  exact hfirst ordered ordered_ignoreTail

end Form

end Stencil
