import Stencil.Proofs.Lexer.Shortening
import Stencil.Proofs.Text.Lines

/-! # Lines of the forms — no form reads past the end of its line

    `KeepsLine text rest` says that `rest` is behind characters of the line that
    `text` starts in.  The pieces that forms are made of keep the line: a word
    has no line feed in it, and no run takes one.  So every form keeps it
    (`ordered_keepLine`), and the lines that are left are counted by what ends a
    line alone. -/

namespace Stencil

variable {text rest after : List Char}

namespace Text

/-- The rest of a text, behind characters of the line that it starts in. -/
def KeepsLine (text rest : List Char) : Prop := ∃ taken, text = taken ++ rest ∧ '\n' ∉ taken

theorem KeepsLine.refl (text : List Char) : KeepsLine text text := ⟨[], rfl, List.not_mem_nil⟩

theorem KeepsLine.trans (h : KeepsLine text rest) (hafter : KeepsLine rest after) :
    KeepsLine text after := by
  obtain ⟨taken, rfl, htaken⟩ := h
  obtain ⟨more, rfl, hmore⟩ := hafter
  refine ⟨taken ++ more, (List.append_assoc taken more after).symm, ?_⟩
  exact fun hmem => (List.mem_append.mp hmem).elim htaken hmore

theorem keepsLine_cons {c : Char} (hc : c ≠ '\n') (text : List Char) : KeepsLine (c :: text) text :=
  ⟨[c], rfl, fun hmem => hc (List.mem_singleton.mp hmem).symm⟩

theorem keepsLine_dropWhile {p : Char → Bool} (hp : p '\n' = false) (text : List Char) :
    KeepsLine text (text.dropWhile p) := by
  refine ⟨text.takeWhile p, List.takeWhile_append_dropWhile.symm, fun hmem => ?_⟩
  exact absurd (List.mem_takeWhile_imp hmem) (by simp [hp])

theorem keepsLine_dropSpaces (text : List Char) : KeepsLine text (dropSpaces text) :=
  keepsLine_dropWhile rfl text

theorem keepsLine_splitLine (text : List Char) : KeepsLine text (splitLine text).2 :=
  keepsLine_dropWhile rfl text

/-- The line feeds are all left. -/
theorem KeepsLine.countNewlines (h : KeepsLine text rest) :
    countNewlines rest = countNewlines text := by
  obtain ⟨taken, rfl, htaken⟩ := h
  rw [Text.countNewlines, Text.countNewlines, List.count_append, List.count_eq_zero.mpr htaken,
    Nat.zero_add]

theorem countNewlines_cons_break (text : List Char) :
    countNewlines ('\n' :: text) = countNewlines text + 1 := List.count_cons_self

end Text

namespace Form

open Text (KeepsLine)

/-! ## The pieces -/

theorem afterWord?_keepsLine {word : List Char} (hword : '\n' ∉ word)
    (h : afterWord? word text = some after) : KeepsLine text after := by
  induction word generalizing text with
  | nil =>
      obtain rfl := Option.some.inj h
      exact .refl text
  | cons w word ih =>
      cases text with
      | nil => cases h
      | cons c text =>
          rw [afterWord?, Option.ite_none_right_eq_some, beq_iff_eq] at h
          obtain ⟨rfl, h⟩ := h
          have hw : w ≠ '\n' := by
            rintro rfl
            exact hword List.mem_cons_self
          exact (Text.keepsLine_cons hw text).trans
            (ih (fun hmem => hword (List.mem_cons_of_mem _ hmem)) h)

theorem afterWholeWord?_keepsLine {word : String} (hword : '\n' ∉ word.toList)
    (h : afterWholeWord? word text = some after) : KeepsLine text after :=
  afterWord?_keepsLine hword (Option.filter_eq_some_iff.mp h).1

theorem run?_keepsLine {p : Char → Bool} {body : List Char} (hp : p '\n' = false)
    (h : run? p text = some (body, rest)) : KeepsLine text rest := by
  simp only [run?, Option.ite_none_left_eq_some, Option.some.injEq, Prod.mk.injEq] at h
  obtain ⟨-, -, rfl⟩ := h
  exact Text.keepsLine_dropWhile hp text

theorem spacedRun?_keepsLine {least : Nat} {p : Char → Bool} {body : List Char}
    (hp : p '\n' = false) (h : spacedRun? least p text = some (body, rest)) :
    KeepsLine text rest := by
  have hspaces := Text.keepsLine_dropSpaces text
  rw [spacedRun?] at h
  split at h
  · cases h
  · split at h
    · next found hrun =>
        obtain rfl := Option.some.inj h
        exact hspaces.trans (run?_keepsLine hp hrun)
    · simp only [Option.ite_none_right_eq_some, Option.some.injEq, Prod.mk.injEq] at h
      obtain ⟨-, -, rfl⟩ := h
      exact hspaces

theorem optionalColon_keepsLine (text : List Char) : KeepsLine text (optionalColon text).2 := by
  unfold optionalColon
  split
  · next after =>
      exact (Text.keepsLine_cons (by decide) after).trans (Text.keepsLine_dropSpaces after)
  · exact .refl _

theorem dropSemicolon_keepsLine (text : List Char) : KeepsLine text (dropSemicolon text) := by
  unfold dropSemicolon
  split
  · next after =>
      exact (Text.keepsLine_cons (by decide) after).trans (Text.keepsLine_dropSpaces after)
  · exact .refl _

theorem dropDash_keepsLine (text : List Char) : KeepsLine text (dropDash text) := by
  unfold dropDash
  split
  · next after =>
      exact (Text.keepsLine_cons (by decide) after).trans (Text.keepsLine_dropSpaces after)
  · exact .refl _

/-! ## Forms -/

/-- A form that keeps the line whenever it matches. -/
def StaysInLine (form : Form) : Prop :=
  ∀ ⦃text : List Char⦄ ⦃found : Match⦄, form text = some found → KeepsLine text found.rest

/-- The first of two forms keeps the line if both do. -/
theorem StaysInLine.orElse {form other : Form} (h : StaysInLine form) (hother : StaysInLine other) :
    StaysInLine fun text => form text <|> other text := by
  intro text found hfound
  rcases cases_orElse hfound with hmatch | hmatch
  · exact h hmatch
  · exact hother hmatch

theorem keywordLine_staysInLine {word : String} (hword : '\n' ∉ word.toList)
    (lexeme : String → Lexeme) : StaysInLine (keywordLine word lexeme) := by
  intro text found h
  simp only [keywordLine, spacedLine?, Option.bind_eq_bind, Option.bind_eq_some_iff,
    Option.pure_def, Option.some.injEq, Prod.exists] at h
  obtain ⟨after, hafter, line, rest, hrun, rfl⟩ := h
  exact (afterWord?_keepsLine hword hafter).trans (spacedRun?_keepsLine rfl hrun)

theorem signed_staysInLine {sign : Char} {p : Char → Bool} (hsign : '\n' ∉ [sign])
    (hp : p '\n' = false) (kind : TokenKind) : StaysInLine (signed sign p kind) := by
  intro text found h
  simp only [signed, Option.bind_eq_bind, Option.bind_eq_some_iff, Option.pure_def,
    Option.some.injEq, Prod.exists] at h
  obtain ⟨after, hafter, name, rest, hrun, rfl⟩ := h
  exact (afterWord?_keepsLine hsign hafter).trans (run?_keepsLine hp hrun)

theorem conditionOf_staysInLine {word : String} (hword : '\n' ∉ word.toList)
    (code : String → String) : StaysInLine (conditionOf word code) := by
  intro text found h
  simp only [conditionOf, Option.bind_eq_bind, Option.bind_eq_some_iff, Option.pure_def,
    Option.some.injEq] at h
  obtain ⟨after, hafter, rfl⟩ := h
  exact (afterWholeWord?_keepsLine hword hafter).trans (Text.keepsLine_splitLine after)

theorem signedCode_staysInLine {sign : String} (hsign : '\n' ∉ sign.toList)
    (buffer escape : Bool) : StaysInLine (signedCode sign buffer escape) := by
  intro text found h
  simp only [signedCode, Option.bind_eq_bind, Option.bind_eq_some_iff, Option.pure_def,
    Option.some.injEq, Prod.exists] at h
  obtain ⟨after, hafter, line, rest, hrun, rfl⟩ := h
  exact (afterWord?_keepsLine hsign hafter).trans (run?_keepsLine rfl hrun)

/-! ### Composition -/

theorem yieldMark_staysInLine : StaysInLine yieldMark := by
  intro text found h
  simp only [yieldMark, Option.bind_eq_bind, Option.bind_eq_some_iff, Option.pure_def,
    Option.some.injEq] at h
  obtain ⟨after, hafter, rfl⟩ := h
  exact (afterWholeWord?_keepsLine (by decide) hafter).trans (Text.keepsLine_dropSpaces after)

theorem extendsPath_staysInLine : StaysInLine extendsPath :=
  (keywordLine_staysInLine (by decide) _).orElse (keywordLine_staysInLine (by decide) _)

theorem modeWord?_keepsLine {mode : BlockMode} (h : modeWord? text = some (mode, rest)) :
    KeepsLine text rest := by
  have hspaced : ∀ {other : BlockMode}, (do
      let after ← afterWord? other.name.toList text
      if after.head? == some ' ' then some (other, Text.dropSpaces after) else none)
      = some (mode, rest) → KeepsLine text rest := by
    intro other h
    simp only [Option.bind_eq_bind, Option.bind_eq_some_iff,
      Option.ite_none_right_eq_some, Option.some.injEq, Prod.mk.injEq] at h
    obtain ⟨after, hafter, -, -, rfl⟩ := h
    have hname : '\n' ∉ other.name.toList := by cases other <;> decide
    exact (afterWord?_keepsLine hname hafter).trans (Text.keepsLine_dropSpaces after)
  rcases cases_orElse h with hmode | hmode
  · exact hspaced hmode
  · exact hspaced hmode

theorem moded_keepsLine (text : List Char) :
    KeepsLine text ((modeWord? text).getD (.replace, text)).2 := by
  rcases hmode : modeWord? text with - | ⟨mode, rest⟩
  · exact .refl text
  · exact modeWord?_keepsLine hmode

theorem namedBlock_staysInLine : StaysInLine namedBlock := by
  intro text found h
  simp only [namedBlock, Option.bind_eq_bind, Option.bind_eq_some_iff, Option.pure_def,
    Option.some.injEq] at h
  obtain ⟨after, hafter, rfl⟩ := h
  have hword := afterWholeWord?_keepsLine (by decide) hafter
  have hspaces := Text.keepsLine_dropSpaces after
  have hmode := moded_keepsLine (Text.dropSpaces after)
  exact ((hword.trans hspaces).trans hmode).trans (Text.keepsLine_splitLine _)

theorem uptoLastParen?_keepsLine {inside : List Char}
    (h : uptoLastParen? text = some (inside, rest)) : KeepsLine text rest := by
  simp only [uptoLastParen?] at h
  split at h
  · cases h
  · next paren reversed hreversed =>
      simp only [Option.some.injEq, Prod.mk.injEq] at h
      obtain ⟨-, rfl⟩ := h
      -- what is taken is a part of the line
      refine ⟨(Text.splitLine text).1.take (reversed.length + 1), ?_, fun hmem => ?_⟩
      · rw [← List.append_assoc, List.take_append_drop]
        exact List.takeWhile_append_dropWhile.symm
      · exact absurd (List.mem_takeWhile_imp (List.mem_of_mem_take hmem)) (by decide)

theorem uptoFirstParen?_keepsLine {inside : List Char}
    (h : uptoFirstParen? text = some (inside, rest)) : KeepsLine text rest := by
  simp only [uptoFirstParen?] at h
  split at h
  · next after hafter =>
      simp only [Option.some.injEq, Prod.mk.injEq] at h
      obtain ⟨-, rfl⟩ := h
      have hrun := Text.keepsLine_dropWhile (p := fun c => inLine c && c != ')') rfl text
      rw [hafter] at hrun
      exact hrun.trans (Text.keepsLine_cons (by decide) after)
  · cases h

theorem mixinHead_staysInLine : StaysInLine mixinHead := by
  intro text found h
  simp only [mixinHead, Option.bind_eq_bind, Option.bind_eq_some_iff, Option.pure_def,
    Prod.exists] at h
  obtain ⟨after, hafter, name, unnamed, hname, h⟩ := h
  have hnamed : KeepsLine text unnamed :=
    (afterWord?_keepsLine (by decide) hafter).trans (spacedRun?_keepsLine (by decide) hname)
  have hspaces := Text.keepsLine_dropSpaces unnamed
  split at h
  · next inside hinside =>
      rw [hinside] at hspaces
      split at h
      · next args rest hargs =>
          obtain rfl := Option.some.inj h
          exact ((hnamed.trans hspaces).trans (Text.keepsLine_cons (by decide) inside)).trans
            (uptoLastParen?_keepsLine hargs)
      · obtain rfl := Option.some.inj h
        exact hnamed
  · obtain rfl := Option.some.inj h
    exact hnamed

theorem mixinCall_staysInLine : StaysInLine mixinCall := by
  intro text found h
  simp only [mixinCall, Option.bind_eq_bind, Option.bind_eq_some_iff, Option.pure_def,
    Prod.exists] at h
  obtain ⟨after, hafter, name, unnamed, hname, h⟩ := h
  have hnamed : KeepsLine text unnamed :=
    (afterWord?_keepsLine (by decide) hafter).trans (run?_keepsLine (by decide) hname)
  have hspaces := Text.keepsLine_dropSpaces unnamed
  split at h
  · next inside hinside =>
      rw [hinside] at hspaces
      split at h
      · next args rest hargs =>
          split at h
          · obtain rfl := Option.some.inj h
            exact hnamed
          · obtain rfl := Option.some.inj h
            exact ((hnamed.trans hspaces).trans (Text.keepsLine_cons (by decide) inside)).trans
              (uptoFirstParen?_keepsLine hargs)
      · obtain rfl := Option.some.inj h
        exact hnamed
  · obtain rfl := Option.some.inj h
    exact hnamed

/-! ### Control -/

theorem whenArm_staysInLine : StaysInLine whenArm := by
  intro text found h
  simp only [whenArm, Option.bind_eq_bind, Option.bind_eq_some_iff, Option.pure_def,
    Option.some.injEq, Prod.exists] at h
  obtain ⟨after, hafter, expression, rest, hrun, rfl⟩ := h
  have hword : KeepsLine text after := afterWord?_keepsLine (by decide) hafter
  exact (hword.trans (spacedRun?_keepsLine rfl hrun)).trans (optionalColon_keepsLine rest)

theorem defaultArm_staysInLine : StaysInLine defaultArm := by
  intro text found h
  simp only [defaultArm, Option.bind_eq_bind, Option.bind_eq_some_iff, Option.pure_def,
    Option.some.injEq] at h
  obtain ⟨after, hafter, rfl⟩ := h
  have hword : KeepsLine text after := afterWholeWord?_keepsLine (by decide) hafter
  exact (hword.trans (Text.keepsLine_dropSpaces after)).trans (optionalColon_keepsLine _)

theorem conditional_staysInLine : StaysInLine conditional :=
  ((conditionOf_staysInLine (by decide) _).orElse
    ((conditionOf_staysInLine (by decide) _).orElse
      ((conditionOf_staysInLine (by decide) _).orElse
        (conditionOf_staysInLine (by decide) _))))

theorem loopKey_keepsLine (text : List Char) : KeepsLine text (loopKey text).2 := by
  unfold loopKey
  split
  · next key after hkey =>
      simp only [loopKey?, Option.bind_eq_bind, Option.bind_eq_some_iff] at hkey
      obtain ⟨behind, hcomma, hrun⟩ := hkey
      have hbehind : KeepsLine text behind :=
        (Text.keepsLine_dropSpaces text).trans (afterWord?_keepsLine (by decide) hcomma)
      exact (hbehind.trans (Text.keepsLine_dropSpaces behind)).trans
        (run?_keepsLine (by decide) hrun)
  · exact .refl text

theorem loopSource?_keepsLine {source : List Char} (h : loopSource? text = some (source, rest)) :
    KeepsLine text rest := by
  unfold loopSource? at h
  split at h
  · simp only [Option.bind_eq_bind, Option.bind_eq_some_iff] at h
    obtain ⟨after, hafter, hrun⟩ := h
    exact ((Text.keepsLine_dropSpaces text).trans (afterWord?_keepsLine (by decide) hafter)).trans
      (spacedRun?_keepsLine rfl hrun)
  · cases h

theorem eachHead_staysInLine : StaysInLine eachHead := by
  intro text found h
  simp only [eachHead, Option.bind_eq_bind, Option.bind_eq_some_iff, Option.pure_def] at h
  obtain ⟨after, hword, h⟩ := h
  have hafter : KeepsLine (dropDash text) after := by
    rcases cases_orElse hword with hword | hword
    · exact afterWord?_keepsLine (by decide) hword
    · exact afterWord?_keepsLine (by decide) hword
  split at h
  · cases h
  · simp only [Option.bind_eq_some_iff, Option.some.injEq, Prod.exists] at h
    obtain ⟨name, unnamed, hname, source, rest, hsource, rfl⟩ := h
    have hunnamed : KeepsLine after unnamed :=
      (Text.keepsLine_dropSpaces after).trans (run?_keepsLine (by decide) hname)
    exact ((((dropDash_keepsLine text).trans hafter).trans hunnamed).trans
      (loopKey_keepsLine unnamed)).trans (loopSource?_keepsLine hsource)

theorem assignment_staysInLine : StaysInLine assignment := by
  intro text found h
  simp only [assignment, Option.bind_eq_bind, Option.bind_eq_some_iff, Option.pure_def,
    Prod.exists] at h
  obtain ⟨name, unnamed, hname, h⟩ := h
  split at h
  · cases h
  · simp only [Option.bind_eq_some_iff, Option.some.injEq, Prod.exists] at h
    obtain ⟨after, hafter, value, rest, hvalue, rfl⟩ := h
    have hunnamed : KeepsLine text unnamed := run?_keepsLine (by decide) hname
    have hsign : KeepsLine unnamed after :=
      (Text.keepsLine_dropSpaces unnamed).trans (afterWord?_keepsLine (by decide) hafter)
    exact ((hunnamed.trans hsign).trans (spacedRun?_keepsLine rfl hvalue)).trans
      (dropSemicolon_keepsLine rest)

theorem codeLine_staysInLine : StaysInLine codeLine :=
  (signedCode_staysInLine (by decide) true false).orElse
    ((signedCode_staysInLine (by decide) true true).orElse
      (signedCode_staysInLine (by decide) false false))

/-! ### Markup -/

theorem doctype_staysInLine : StaysInLine doctype := by
  intro text found h
  simp only [doctype, Option.bind_eq_bind, Option.bind_eq_some_iff, Option.pure_def,
    Option.some.injEq] at h
  obtain ⟨after, hword, rfl⟩ := h
  have hafter : KeepsLine text after := by
    rcases cases_orElse hword with hmark | hmark
    · exact afterWord?_keepsLine (by decide) hmark
    · exact afterWholeWord?_keepsLine (by decide) hmark
  exact (hafter.trans (Text.keepsLine_dropSpaces after)).trans (Text.keepsLine_splitLine _)

theorem interpolatedTag_staysInLine : StaysInLine interpolatedTag := by
  intro text found h
  simp only [interpolatedTag, Option.bind_eq_bind, Option.bind_eq_some_iff, Option.pure_def] at h
  obtain ⟨after, hword, h⟩ := h
  split at h
  · next rest hrest =>
      obtain rfl := Option.some.inj h
      have hrun := Text.keepsLine_dropWhile (p := fun c => inLine c && c != '}') rfl after
      rw [hrest] at hrun
      exact ((afterWord?_keepsLine (by decide) hword).trans hrun).trans
        (Text.keepsLine_cons (by decide) rest)
  · cases h

/-- A slash that closes an element is on its line. -/
theorem closed_keepsLine (text : List Char) :
    KeepsLine text (if text.head? == some '/' then text.tail else text) := by
  split
  · next hslash =>
      obtain ⟨after, rfl⟩ := List.head?_eq_some_iff.mp (beq_iff_eq.mp hslash)
      exact Text.keepsLine_cons (by decide) after
  · exact .refl text

theorem tagName_staysInLine : StaysInLine tagName := by
  intro text found h
  simp only [tagName] at h
  split at h
  · have hname : KeepsLine text (text.dropWhile inTagName) :=
      Text.keepsLine_dropWhile (by decide) text
    have hclosed := hname.trans (closed_keepsLine _)
    split at h
    · obtain rfl := Option.some.inj h
      exact hclosed.trans (Text.keepsLine_dropSpaces _)
    · obtain rfl := Option.some.inj h
      exact hclosed
  · cases h

theorem comment_staysInLine : StaysInLine comment := by
  intro text found h
  simp only [comment, Option.bind_eq_bind, Option.bind_eq_some_iff, Option.pure_def] at h
  obtain ⟨after, hword, h⟩ := h
  have hafter : KeepsLine text after :=
    (Text.keepsLine_dropSpaces text).trans (afterWord?_keepsLine (by decide) hword)
  split at h
  · next hidden =>
      obtain rfl := Option.some.inj h
      exact (hafter.trans (Text.keepsLine_cons (by decide) hidden)).trans
        (Text.keepsLine_splitLine hidden)
  · obtain rfl := Option.some.inj h
    exact hafter.trans (Text.keepsLine_splitLine after)

theorem textLine_staysInLine : StaysInLine textLine := by
  intro text found h
  simp only [textLine, Option.bind_eq_bind, Option.bind_eq_some_iff, Option.pure_def,
    Option.some.injEq, Prod.exists] at h
  obtain ⟨line, rest, hrun, rfl⟩ := h
  exact run?_keepsLine rfl hrun

/-- **No form reads past the end of its line.** -/
theorem ordered_stayInLine : ∀ form ∈ ordered, StaysInLine form := by
  simp only [ordered, List.forall_mem_cons]
  exact ⟨yieldMark_staysInLine, doctype_staysInLine, interpolatedTag_staysInLine,
    keywordLine_staysInLine (by decide) _, whenArm_staysInLine, defaultArm_staysInLine,
    extendsPath_staysInLine, keywordLine_staysInLine (by decide) _,
    keywordLine_staysInLine (by decide) _, namedBlock_staysInLine,
    keywordLine_staysInLine (by decide) _, mixinHead_staysInLine, mixinCall_staysInLine,
    conditional_staysInLine, eachHead_staysInLine, keywordLine_staysInLine (by decide) _,
    assignment_staysInLine, tagName_staysInLine,
    signed_staysInLine (by decide) (by decide) _, codeLine_staysInLine,
    signed_staysInLine (by decide) (by decide) _, signed_staysInLine (by decide) (by decide) _,
    comment_staysInLine, textLine_staysInLine, List.forall_mem_nil _⟩

theorem first?_keepsLine {found : Match} (h : first? text = some found) :
    KeepsLine text found.rest := by
  obtain ⟨form, hform, hmatch⟩ := List.exists_of_findSome?_eq_some h
  exact ordered_stayInLine form hform hmatch

end Form

end Stencil
