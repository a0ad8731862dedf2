import Stencil.Form.Order

/-! # Shortening — every form takes a character

    A form that matches leaves less text than it was given.  The pieces that
    forms are made of either take a character (`afterWord?` with a word in it,
    `run?`, `spacedRun?`) or at least add none, so a form shortens the text as
    soon as one piece of the first sort is in it.  `first?_shortens` states it
    for the whole ordered list. -/

namespace Stencil.Form

/-! ## The pieces -/

theorem dropSpaces_length_le (text : List Char) : (Text.dropSpaces text).length ≤ text.length :=
  (List.dropWhile_sublist _).length_le

theorem splitLine_rest_le (text : List Char) : (Text.splitLine text).2.length ≤ text.length :=
  (List.dropWhile_sublist _).length_le

theorem afterWord?_length {word : List Char} :
    ∀ {text after : List Char}, afterWord? word text = some after →
      after.length + word.length = text.length := by
  induction word with
  | nil =>
      intro text after h
      simp [afterWord?] at h
      simp [h]
  | cons w word ih =>
      intro text after h
      cases text with
      | nil => simp [afterWord?] at h
      | cons c text =>
          by_cases hc : w == c
          · simp only [afterWord?, hc, if_true] at h
            have := ih h
            simp only [List.length_cons]
            omega
          · simp [afterWord?, hc] at h

theorem afterWholeWord?_length {word : String} {text after : List Char}
    (h : afterWholeWord? word text = some after) :
    after.length + word.toList.length = text.length := by
  obtain ⟨hafter, -⟩ := Option.filter_eq_some_iff.mp h
  exact afterWord?_length hafter

theorem run?_length {p : Char → Bool} {text body rest : List Char}
    (h : run? p text = some (body, rest)) : rest.length < text.length := by
  simp only [run?, Option.ite_none_left_eq_some, Option.some.injEq, Prod.mk.injEq] at h
  obtain ⟨hne, hbody, hrest⟩ := h
  have hsplit : (text.takeWhile p).length + (text.dropWhile p).length = text.length := by
    rw [← List.length_append, List.takeWhile_append_dropWhile]
  have hpos : 0 < (text.takeWhile p).length := by
    rcases hp : text.takeWhile p with - | ⟨c, cs⟩
    · exact absurd (by rw [hp]; rfl) hne
    · exact Nat.succ_pos _
  rw [← hrest]
  omega

theorem spacedRun?_length {least : Nat} {p : Char → Bool} {text body rest : List Char}
    (h : spacedRun? least p text = some (body, rest)) : rest.length < text.length := by
  have hsplit : (text.takeWhile (· == ' ')).length + (Text.dropSpaces text).length
      = text.length := by
    rw [← List.length_append, Text.dropSpaces, List.takeWhile_append_dropWhile]
  rw [spacedRun?] at h
  split at h
  · exact nomatch h
  · split at h
    · next found hrun =>
        obtain rfl := Option.some.inj h
        exact Nat.lt_of_lt_of_le (run?_length hrun) (dropSpaces_length_le text)
    · split at h
      · next hmore =>
          simp only [Option.some.injEq, Prod.mk.injEq] at h
          simp only [Bool.and_eq_true, decide_eq_true_eq] at hmore
          rw [← h.2]
          omega
      · exact nomatch h

theorem optionalColon_length_le (text : List Char) :
    (optionalColon text).2.length ≤ text.length := by
  unfold optionalColon
  split
  · exact Nat.le_succ_of_le (dropSpaces_length_le _)
  · exact Nat.le_refl _

theorem dropSemicolon_length_le (text : List Char) :
    (dropSemicolon text).length ≤ text.length := by
  unfold dropSemicolon
  split
  · exact Nat.le_succ_of_le (dropSpaces_length_le _)
  · exact Nat.le_refl _

/-! ## Forms -/

/-- A form that takes a character whenever it matches. -/
def Shortens (form : Form) : Prop :=
  ∀ ⦃text : List Char⦄ ⦃found : Match⦄, form text = some found →
    found.rest.length < text.length

theorem cases_orElse {α : Type} {first other : Option α} {result : α}
    (h : (first <|> other) = some result) : first = some result ∨ other = some result := by
  cases first with
  | none => exact Or.inr h
  | some found => exact Or.inl h

/-- The first of two forms shortens if both do. -/
theorem Shortens.orElse {form other : Form} (h : Shortens form) (hother : Shortens other) :
    Shortens fun text => form text <|> other text := by
  intro text found hfound
  rcases cases_orElse hfound with hmatch | hmatch
  · exact h hmatch
  · exact hother hmatch

theorem keywordLine_shortens (word : String) (lexeme : String → Lexeme) :
    Shortens (keywordLine word lexeme) := by
  intro text found h
  simp only [keywordLine, spacedLine?, Option.bind_eq_bind, Option.bind_eq_some_iff,
    Option.pure_def, Option.some.injEq, Prod.exists] at h
  obtain ⟨after, hword, line, rest, hrun, rfl⟩ := h
  have := afterWord?_length hword
  have := spacedRun?_length hrun
  show rest.length < text.length
  omega

theorem signed_shortens (sign : Char) (p : Char → Bool) (kind : TokenKind) :
    Shortens (signed sign p kind) := by
  intro text found h
  simp only [signed, Option.bind_eq_bind, Option.bind_eq_some_iff, Option.pure_def,
    Option.some.injEq, Prod.exists] at h
  obtain ⟨after, hword, name, rest, hrun, rfl⟩ := h
  have := afterWord?_length hword
  have := run?_length hrun
  show rest.length < text.length
  omega

theorem conditionOf_shortens (word : String) (code : String → String)
    (hword : 0 < word.toList.length) : Shortens (conditionOf word code) := by
  intro text found h
  simp only [conditionOf, Option.bind_eq_bind, Option.bind_eq_some_iff, Option.pure_def,
    Option.some.injEq] at h
  obtain ⟨after, hafter, rfl⟩ := h
  have := afterWholeWord?_length hafter
  have := splitLine_rest_le after
  show (Text.splitLine after).2.length < text.length
  omega

theorem signedCode_shortens (sign : String) (buffer escape : Bool) :
    Shortens (signedCode sign buffer escape) := by
  intro text found h
  simp only [signedCode, Option.bind_eq_bind, Option.bind_eq_some_iff, Option.pure_def,
    Option.some.injEq, Prod.exists] at h
  obtain ⟨after, hword, line, rest, hrun, rfl⟩ := h
  have := afterWord?_length hword
  have := run?_length hrun
  show rest.length < text.length
  omega

theorem whenArm_shortens : Shortens whenArm := by
  intro text found h
  simp only [whenArm, Option.bind_eq_bind, Option.bind_eq_some_iff, Option.pure_def,
    Option.some.injEq, Prod.exists] at h
  obtain ⟨after, hword, expression, rest, hrun, rfl⟩ := h
  have := afterWord?_length hword
  have := spacedRun?_length hrun
  have := optionalColon_length_le rest
  show (optionalColon rest).2.length < text.length
  omega

theorem defaultArm_shortens : Shortens defaultArm := by
  intro text found h
  simp only [defaultArm, Option.bind_eq_bind, Option.bind_eq_some_iff, Option.pure_def,
    Option.some.injEq] at h
  obtain ⟨after, hword, rfl⟩ := h
  have : after.length + 7 = text.length := afterWholeWord?_length hword
  have := dropSpaces_length_le after
  have := optionalColon_length_le (Text.dropSpaces after)
  show (optionalColon (Text.dropSpaces after)).2.length < text.length
  omega

theorem conditional_shortens : Shortens conditional :=
  ((conditionOf_shortens "if" _ (by decide)).orElse
    ((conditionOf_shortens "unless" _ (by decide)).orElse
      ((conditionOf_shortens "else if" _ (by decide)).orElse
        (conditionOf_shortens "else" _ (by decide)))))

theorem loopKey?_length {text key rest : List Char} (h : loopKey? text = some (key, rest)) :
    rest.length < text.length := by
  simp only [loopKey?, Option.bind_eq_bind, Option.bind_eq_some_iff] at h
  obtain ⟨after, hword, hrun⟩ := h
  have := afterWord?_length hword
  have := run?_length hrun
  have := dropSpaces_length_le text
  have := dropSpaces_length_le after
  omega

theorem loopSource?_length {text source rest : List Char}
    (h : loopSource? text = some (source, rest)) : rest.length < text.length := by
  unfold loopSource? at h
  split at h
  · simp only [Option.bind_eq_bind, Option.bind_eq_some_iff] at h
    obtain ⟨after, hword, hrun⟩ := h
    have := afterWord?_length hword
    have := spacedRun?_length hrun
    have := dropSpaces_length_le text
    omega
  · exact nomatch h

theorem dropDash_length_le (text : List Char) : (dropDash text).length ≤ text.length := by
  unfold dropDash
  split
  · exact Nat.le_succ_of_le (dropSpaces_length_le _)
  · exact Nat.le_refl _

theorem eachWord_length {text after : List Char}
    (h : (afterWord? "each".toList text <|> afterWord? "for".toList text) = some after) :
    after.length < text.length := by
  rcases cases_orElse h with hword | hword
  · have : after.length + 4 = text.length := afterWord?_length hword
    omega
  · have : after.length + 3 = text.length := afterWord?_length hword
    omega

theorem loopKey_length_le (text : List Char) : (loopKey text).2.length ≤ text.length := by
  unfold loopKey
  split
  · next hkey => exact Nat.le_of_lt (loopKey?_length hkey)
  · exact Nat.le_refl _

theorem eachHead_shortens : Shortens eachHead := by
  intro text found h
  have := dropDash_length_le text
  simp only [eachHead, Option.bind_eq_bind, Option.bind_eq_some_iff, Option.pure_def] at h
  obtain ⟨after, hword, h⟩ := h
  have hafter := eachWord_length hword
  split at h
  · exact nomatch h
  · simp only [Option.bind_eq_some_iff, Option.some.injEq, Prod.exists] at h
    obtain ⟨name, unnamed, hname, source, rest, hsource, rfl⟩ := h
    have := run?_length hname
    have := dropSpaces_length_le after
    have := loopSource?_length hsource
    have := loopKey_length_le unnamed
    show rest.length < text.length
    omega

theorem assignment_shortens : Shortens assignment := by
  intro text found h
  simp only [assignment, Option.bind_eq_bind, Option.bind_eq_some_iff, Option.pure_def,
    Prod.exists] at h
  obtain ⟨name, unnamed, hname, h⟩ := h
  split at h
  · exact nomatch h
  · simp only [Option.bind_eq_some_iff, Option.some.injEq, Prod.exists] at h
    obtain ⟨after, hword, value, rest, hvalue, rfl⟩ := h
    have := run?_length hname
    have := dropSpaces_length_le unnamed
    have := afterWord?_length hword
    have := spacedRun?_length hvalue
    have := dropSemicolon_length_le rest
    show (dropSemicolon rest).length < text.length
    omega

theorem codeLine_shortens : Shortens codeLine :=
  (signedCode_shortens "!=" true false).orElse
    ((signedCode_shortens "=" true true).orElse (signedCode_shortens "-" false false))

theorem doctype_shortens : Shortens doctype := by
  intro text found h
  simp only [doctype, Option.bind_eq_bind, Option.bind_eq_some_iff, Option.pure_def,
    Option.some.injEq] at h
  obtain ⟨after, hword, rfl⟩ := h
  have hafter : after.length < text.length := by
    rcases cases_orElse hword with hmark | hmark
    · have : after.length + 3 = text.length := afterWord?_length hmark
      omega
    · have : after.length + 7 = text.length := afterWholeWord?_length hmark
      omega
  have := dropSpaces_length_le after
  have := splitLine_rest_le (Text.dropSpaces after)
  show (Text.splitLine (Text.dropSpaces after)).2.length < text.length
  omega

theorem interpolatedTag_shortens : Shortens interpolatedTag := by
  intro text found h
  simp only [interpolatedTag, Option.bind_eq_bind, Option.bind_eq_some_iff, Option.pure_def] at h
  obtain ⟨after, hword, h⟩ := h
  split at h
  · next rest hrest =>
      obtain rfl := Option.some.inj h
      have := afterWord?_length hword
      have : ('}' :: rest).length ≤ after.length := hrest ▸ (List.dropWhile_sublist _).length_le
      simp only [List.length_cons] at this
      show rest.length < text.length
      omega
  · exact nomatch h

/-- The rest behind an element name, without the slash that closes the element. -/
theorem closed_length_le (rest : List Char) :
    (if rest.head? == some '/' then rest.tail else rest).length ≤ rest.length := by
  split
  · rw [List.length_tail]
    exact Nat.sub_le _ _
  · exact Nat.le_refl _

theorem tagName_shortens : Shortens tagName := by
  intro text found h
  simp only [tagName] at h
  split at h
  · next hword =>
      have hname : (text.dropWhile inTagName).length < text.length := by
        cases text with
        | nil => simp at hword
        | cons c text =>
            have hc : inTagName c = true := by
              simp only [List.head?_cons, Option.any_some] at hword
              simp [inTagName, Text.isNamePart, hword]
            rw [List.dropWhile_cons_of_pos hc]
            exact Nat.lt_succ_of_le (List.dropWhile_sublist _).length_le
      have hclosed := closed_length_le (text.dropWhile inTagName)
      split at h
      · obtain rfl := Option.some.inj h
        exact Nat.lt_of_le_of_lt (Nat.le_trans (dropSpaces_length_le _) hclosed) hname
      · obtain rfl := Option.some.inj h
        exact Nat.lt_of_le_of_lt hclosed hname
  · exact nomatch h

theorem comment_shortens : Shortens comment := by
  intro text found h
  simp only [comment, Option.bind_eq_bind, Option.bind_eq_some_iff, Option.pure_def] at h
  obtain ⟨after, hword, h⟩ := h
  have : after.length + 2 = (Text.dropSpaces text).length := afterWord?_length hword
  have := dropSpaces_length_le text
  split at h
  · next hidden =>
      obtain rfl := Option.some.inj h
      have := splitLine_rest_le hidden
      show (Text.splitLine hidden).2.length < text.length
      simp only [List.length_cons] at *
      omega
  · obtain rfl := Option.some.inj h
    have := splitLine_rest_le after
    show (Text.splitLine after).2.length < text.length
    omega

theorem textLine_shortens : Shortens textLine := by
  intro text found h
  simp only [textLine, Option.bind_eq_bind, Option.bind_eq_some_iff, Option.pure_def,
    Option.some.injEq, Prod.exists] at h
  obtain ⟨line, rest, hrun, rfl⟩ := h
  exact run?_length hrun

theorem yieldMark_shortens : Shortens yieldMark := by
  intro text found h
  simp only [yieldMark, Option.bind_eq_bind, Option.bind_eq_some_iff, Option.pure_def,
    Option.some.injEq] at h
  obtain ⟨after, hword, rfl⟩ := h
  have : after.length + 5 = text.length := afterWholeWord?_length hword
  have := dropSpaces_length_le after
  show (Text.dropSpaces after).length < text.length
  omega

theorem modeWord?_length {text rest : List Char} {mode : BlockMode}
    (h : modeWord? text = some (mode, rest)) : rest.length ≤ text.length := by
  have hspaced : ∀ {other : BlockMode}, (do
      let after ← afterWord? other.name.toList text
      if after.head? == some ' ' then some (other, Text.dropSpaces after) else none)
      = some (mode, rest) → rest.length ≤ text.length := by
    intro other h
    simp only [Option.bind_eq_bind, Option.bind_eq_some_iff,
      Option.ite_none_right_eq_some, Option.some.injEq, Prod.mk.injEq] at h
    obtain ⟨after, hword, -, -, rfl⟩ := h
    have := afterWord?_length hword
    have := dropSpaces_length_le after
    omega
  rcases cases_orElse h with hmode | hmode
  · exact hspaced hmode
  · exact hspaced hmode

theorem moded_length_le (text : List Char) :
    ((modeWord? text).getD (.replace, text)).2.length ≤ text.length := by
  rcases hmode : modeWord? text with - | ⟨mode, rest⟩
  · exact Nat.le_refl _
  · exact modeWord?_length hmode

theorem namedBlock_shortens : Shortens namedBlock := by
  intro text found h
  simp only [namedBlock, Option.bind_eq_bind, Option.bind_eq_some_iff, Option.pure_def,
    Option.some.injEq] at h
  obtain ⟨after, hword, rfl⟩ := h
  have : after.length + 5 = text.length := afterWholeWord?_length hword
  have := dropSpaces_length_le after
  have := moded_length_le (Text.dropSpaces after)
  have := splitLine_rest_le
    ((modeWord? (Text.dropSpaces after)).getD (.replace, Text.dropSpaces after)).2
  show (Text.splitLine _).2.length < text.length
  omega

theorem uptoLastParen?_length {text inside rest : List Char}
    (h : uptoLastParen? text = some (inside, rest)) : rest.length < text.length := by
  have hsplit : (Text.splitLine text).1.length + (Text.splitLine text).2.length
      = text.length := by
    rw [← List.length_append]
    exact congrArg List.length List.takeWhile_append_dropWhile
  simp only [uptoLastParen?] at h
  split at h
  · exact nomatch h
  · next paren reversed hreversed =>
      simp only [Option.some.injEq, Prod.mk.injEq] at h
      have hle :=
        (List.dropWhile_sublist (· != ')') (l := (Text.splitLine text).1.reverse)).length_le
      rw [hreversed, List.length_reverse, List.length_cons] at hle
      rw [← h.2, List.length_append, List.length_drop]
      omega

theorem uptoFirstParen?_length {text inside rest : List Char}
    (h : uptoFirstParen? text = some (inside, rest)) : rest.length < text.length := by
  simp only [uptoFirstParen?] at h
  split at h
  · next after hafter =>
      simp only [Option.some.injEq, Prod.mk.injEq] at h
      have hle : (')' :: after).length ≤ text.length :=
        hafter ▸ (List.dropWhile_sublist _).length_le
      rw [List.length_cons] at hle
      rw [← h.2]
      omega
  · exact nomatch h

theorem mixinHead_shortens : Shortens mixinHead := by
  intro text found h
  simp only [mixinHead, Option.bind_eq_bind, Option.bind_eq_some_iff, Option.pure_def,
    Prod.exists] at h
  obtain ⟨after, hword, name, unnamed, hname, h⟩ := h
  have := afterWord?_length hword
  have := spacedRun?_length hname
  have hspaces := dropSpaces_length_le unnamed
  split at h
  · next inside hinside =>
      rw [hinside, List.length_cons] at hspaces
      split at h
      · next args rest hargs =>
          obtain rfl := Option.some.inj h
          have := uptoLastParen?_length hargs
          show rest.length < text.length
          omega
      · obtain rfl := Option.some.inj h
        show unnamed.length < text.length
        omega
  · obtain rfl := Option.some.inj h
    show unnamed.length < text.length
    omega

theorem mixinCall_shortens : Shortens mixinCall := by
  intro text found h
  simp only [mixinCall, Option.bind_eq_bind, Option.bind_eq_some_iff, Option.pure_def,
    Prod.exists] at h
  obtain ⟨after, hword, name, unnamed, hname, h⟩ := h
  have := afterWord?_length hword
  have := run?_length hname
  have hspaces := dropSpaces_length_le unnamed
  split at h
  · next inside hinside =>
      rw [hinside, List.length_cons] at hspaces
      split at h
      · next args rest hargs =>
          have := uptoFirstParen?_length hargs
          split at h
          · obtain rfl := Option.some.inj h
            show unnamed.length < text.length
            omega
          · obtain rfl := Option.some.inj h
            show rest.length < text.length
            omega
      · obtain rfl := Option.some.inj h
        show unnamed.length < text.length
        omega
  · obtain rfl := Option.some.inj h
    show unnamed.length < text.length
    omega

theorem extendsPath_shortens : Shortens extendsPath :=
  (keywordLine_shortens "extends" _).orElse (keywordLine_shortens "extend" _)

/-- **Every form takes a character.** -/
theorem ordered_shorten : ∀ form ∈ ordered, Shortens form := by
  simp only [ordered, List.forall_mem_cons]
  exact ⟨yieldMark_shortens, doctype_shortens, interpolatedTag_shortens,
    keywordLine_shortens "case" _, whenArm_shortens, defaultArm_shortens, extendsPath_shortens,
    keywordLine_shortens "append" _, keywordLine_shortens "prepend" _, namedBlock_shortens,
    keywordLine_shortens "include" _, mixinHead_shortens, mixinCall_shortens,
    conditional_shortens, eachHead_shortens, keywordLine_shortens "while" _,
    assignment_shortens, tagName_shortens, signed_shortens ':' _ _, codeLine_shortens,
    signed_shortens '#' _ _, signed_shortens '.' _ _, comment_shortens, textLine_shortens,
    fun _ h => absurd h List.not_mem_nil⟩

theorem first?_shortens {text : List Char} {found : Match} (h : first? text = some found) :
    found.rest.length < text.length := by
  obtain ⟨form, hform, hmatch⟩ := List.exists_of_findSome?_eq_some h
  exact ordered_shorten form hform hmatch

end Stencil.Form
