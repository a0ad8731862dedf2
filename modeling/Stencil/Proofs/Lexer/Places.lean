import Stencil.Proofs.Lexer.Leads

/-! # Places — what the forms make of a line that leads to a shorthand

    A line leads to a shorthand behind a colon, and the name of the element may be
    put in front of it.  No form can tell before it has come to the place: each
    finds nothing in both lines, or the same in both, and what is left still leads
    to the place or is all that stands there; or it takes the place in (`Finds`).
    So does the first form that matches (`first?_finds`), and at the place itself
    both lines say what they should (`first?_text`, `first?_full`). -/

namespace Stencil

open Form

variable {text : List Char} {p : Char → Bool}

namespace Form

/-! ## Forms -/

/-- What a form finds in a line that leads to a shorthand, and in the line with the name of the
    element in front of it. -/
inductive Finds (place : BareShorthand) (form : Form) (text : List Char) : Prop where
  /-- The form finds nothing. -/
  | none (bare : form (text ++ place.text) = .none) (full : form (text ++ place.full) = .none)
  /-- The form finds something in the part that leads to the shorthand. -/
  | kept (found : Match) (left : found.rest = [] ∨ Leads found.rest)
      (bare : form (text ++ place.text) = some (found.withTail place.text))
      (full : form (text ++ place.full) = some (found.withTail place.full))
  /-- The form takes the place in. -/
  | past (found : Match) (left : found.rest <:+ place.name ++ place.rest)
      (bare : form (text ++ place.text) = some found)

section Forms

variable {place : BareShorthand}

theorem Finds.orElse {form other : Form} (h : Finds place form text)
    (hother : Finds place other text) :
    Finds place (fun text => form text <|> other text) text := by
  cases h with
  | none bare full =>
      cases hother with
      | none bare' full' => exact .none (by rw [bare, bare']; rfl) (by rw [full, full']; rfl)
      | kept found left bare' full' =>
          exact .kept found left (by rw [bare, bare']; rfl) (by rw [full, full']; rfl)
      | past found left bare' => exact .past found left (by rw [bare, bare']; rfl)
  | kept found left bare full =>
      exact .kept found left (by rw [bare]; rfl) (by rw [full]; rfl)
  | past found left bare => exact .past found left (by rw [bare]; rfl)

/-- A form that finds nothing whatever stands at the place. -/
theorem finds_none {form : Form} (h : ∀ more, form (text ++ more) = none) :
    Finds place form text :=
  .none (h _) (h _)

/-- A form that finds the same whatever stands at the place. -/
theorem finds_kept {form : Form} (found : Match) (left : found.rest = [] ∨ Leads found.rest)
    (h : ∀ more : List Char, more.head? ≠ some ' ' →
      form (text ++ more) = some (found.withTail more)) : Finds place form text :=
  .kept found left (h _ place.head?_text) (h _ place.head?_full)

/-- A form that goes on behind the shorthand. -/
theorem finds_past {form : Form} {lexeme : Lexeme} {colon : Bool} {left : List Char}
    (h : form (text ++ place.text) = some ⟨lexeme, colon, left⟩)
    (hleft : left <:+ place.name ++ place.rest) : Finds place form text :=
  .past _ hleft h

variable (h : Leads text)
include h

theorem keywordLine_finds {word : String} (hword : ':' ∉ word.toList) (lexeme : String → Lexeme) :
    Finds place (keywordLine word lexeme) text := by
  rcases afterWord?_leads h _ hword with hnone | ⟨after, hafter, hsome⟩
  · exact finds_none fun more => by rw [keywordLine, hnone]; rfl
  · have hsign : inLine place.sign = true :=
      place.forall_sign (P := (inLine · = true)) (by decide) (by decide)
    rcases spacedRun?_cases hafter (p := inLine) place 1 (by decide) (by decide) hsign with
      (hrun | ⟨body, left, hleft, hrun⟩) | ⟨body, left, hleft, hrun⟩
    · refine finds_none fun more => ?_
      rw [keywordLine, hsome]
      simp only [spacedLine?, Option.bind_eq_bind, Option.bind_some, hrun]
      rfl
    · refine finds_kept ⟨lexeme (String.ofList body), false, left⟩ (.inr hleft) fun more _ => ?_
      rw [keywordLine, hsome]
      simp only [spacedLine?, Option.bind_eq_bind, Option.bind_some, hrun]
      rfl
    · refine .past ⟨lexeme (String.ofList body), false, left⟩ hleft ?_
      rw [keywordLine, hsome]
      simp only [spacedLine?, Option.bind_eq_bind, Option.bind_some, hrun]
      rfl

theorem signed_finds {sign : Char} (hsign : sign ≠ ':') (hp : p ':' = false) (kind : TokenKind) :
    Finds place (signed sign p kind) text := by
  rcases afterWord?_leads h [sign] (by simpa using hsign.symm) with
    hnone | ⟨after, hafter, hsome⟩
  · exact finds_none fun more => by rw [signed, hnone]; rfl
  · rcases run?_leads hafter hp with hrun | ⟨body, left, hleft, hrun⟩
    · refine finds_none fun more => ?_
      rw [signed, hsome]
      simp only [Option.bind_eq_bind, Option.bind_some, hrun]
      rfl
    · refine finds_kept ⟨.bare kind (String.ofList body), false, left⟩ (.inr hleft)
        fun more _ => ?_
      rw [signed, hsome]
      simp only [Option.bind_eq_bind, Option.bind_some, hrun]
      rfl

/-- The rest of the line, behind a word. -/
theorem splitLine_past (place : BareShorthand) :
    (Text.splitLine (text ++ place.text)).2 <:+ place.name ++ place.rest := by
  refine place.dropWhile_past (fun c hc => bne_iff_ne.mpr fun heq => h.oneLine (heq ▸ hc)) ?_
  exact place.forall_sign (P := fun c => (c != '\n') = true) (by decide) (by decide)

theorem conditionOf_finds {word : String} (hword : ':' ∉ word.toList) (code : String → String) :
    Finds place (conditionOf word code) text := by
  rcases afterWholeWord?_leads h _ hword with hnone | ⟨after, hafter, hsome⟩
  · exact finds_none fun more => by rw [conditionOf, hnone]; rfl
  · exact finds_past (by rw [conditionOf, hsome]; rfl) (splitLine_past hafter place)

theorem yieldMark_finds : Finds place yieldMark text := by
  rcases afterWholeWord?_leads h "yield" (by decide) with hnone | ⟨after, hafter, hsome⟩
  · exact finds_none fun more => by rw [yieldMark, hnone]; rfl
  · refine finds_kept ⟨.bare .yield "", false, Text.dropSpaces after⟩
      (.inr (hafter.dropSpaces []).2) fun more _ => ?_
    rw [yieldMark, hsome]
    simp only [Option.bind_eq_bind, Option.bind_some, (hafter.dropSpaces more).1]
    rfl

theorem doctype_finds : Finds place doctype text := by
  have hword : Passes (fun text => afterWord? "!!!".toList text
      <|> afterWholeWord? "doctype" text) text :=
    (afterWord?_leads h _ (by decide)).orElse (afterWholeWord?_leads h _ (by decide))
  rcases hword with hnone | ⟨after, hafter, hsome⟩
  · refine finds_none fun more => ?_
    dsimp only at hnone
    rw [doctype, hnone]
    rfl
  · have hdrop := hafter.dropSpaces place.text
    refine .past ⟨.bare .doctype (String.ofList (Text.splitLine (Text.dropSpaces after
      ++ place.text)).1), false, _⟩ (splitLine_past hdrop.2 place) ?_
    dsimp only at hsome
    rw [doctype, hsome]
    simp only [Option.bind_eq_bind, Option.bind_some, hdrop.1]
    rfl

theorem interpolatedTag_finds : Finds place interpolatedTag text := by
  rcases afterWord?_leads h "#\x7b".toList (by decide) with hnone | ⟨after, hafter, hsome⟩
  · exact finds_none fun more => by rw [interpolatedTag, hnone]; rfl
  · have hclosed : ∀ {more left : List Char},
        (after ++ more).dropWhile (fun c => inLine c && c != '}') = '}' :: left →
        interpolatedTag (text ++ more) = some ⟨.bare .interpolation (String.ofList
          ((after ++ more).takeWhile fun c => inLine c && c != '}')), false, left⟩ := by
      intro more left hleft
      rw [interpolatedTag, hsome]
      simp only [Option.bind_eq_bind, Option.bind_some, hleft]
      rfl
    have hopen : ∀ {more : List Char},
        (∀ left, (after ++ more).dropWhile (fun c => inLine c && c != '}') ≠ '}' :: left) →
        interpolatedTag (text ++ more) = none := by
      intro more hne
      rw [interpolatedTag, hsome]
      simp only [Option.bind_eq_bind, Option.bind_some]
    rcases hafter.run_cases (p := fun c => inLine c && c != '}') (by decide) (by decide) with
      ⟨c, left, -, hcolon, hspace, hleft, hrun⟩ | hall
    · by_cases hc : c = '}'
      · subst hc
        have hbehind : Leads left := hleft.tail hcolon hspace
        refine finds_kept ⟨.bare .interpolation (String.ofList
          (after.takeWhile fun c => inLine c && c != '}')), false, left⟩ (.inr hbehind)
          fun more _ => ?_
        rw [hclosed (hrun more).2, (hrun more).1]
        rfl
      · refine finds_none fun more => hopen fun other hother => ?_
        rw [(hrun more).2] at hother
        exact hc (List.cons.inj hother).1
    · -- the name of the element has no brace in it
      have hname : ∀ c ∈ "div".toList, (inLine c && c != '}') = true :=
        List.all_eq_true.mp (by decide)
      have hfull : (after ++ place.full).dropWhile (fun c => inLine c && c != '}')
          = (after ++ place.text).dropWhile fun c => inLine c && c != '}' := by
        rw [List.dropWhile_append_of_pos hall, List.dropWhile_append_of_pos hall,
          BareShorthand.full, List.dropWhile_append_of_pos hname]
      by_cases hend : ∃ left, (after ++ place.text).dropWhile (fun c => inLine c && c != '}')
          = '}' :: left
      · obtain ⟨left, hleft⟩ := hend
        have hsuffix := place.dropWhile_past hall
          (place.forall_sign (P := fun c => (inLine c && c != '}') = true) (by decide) (by decide))
        rw [hleft] at hsuffix
        exact finds_past (hclosed hleft) ((List.suffix_cons _ _).trans hsuffix)
      · rw [not_exists] at hend
        exact .none (hopen hend) (hopen (hfull ▸ hend))

theorem whenArm_finds : Finds place whenArm text := by
  rcases afterWord?_leads h "when".toList (by decide) with hnone | ⟨after, hafter, hsome⟩
  · exact finds_none fun more => by rw [whenArm, hnone]; rfl
  · rcases spacedRun?_leads (p := inWhen) hafter 1 (by decide) with
      hrun | ⟨body, left, hleft, hrun⟩
    · refine finds_none fun more => ?_
      rw [whenArm, hsome]
      simp only [Option.bind_eq_bind, Option.bind_some, hrun]
      rfl
    · obtain ⟨colon, last, hlast, hcolon⟩ := optionalColon_leads hleft
      refine finds_kept ⟨.bare .when (String.ofList (Text.trimEnd body)), colon, last⟩ hlast
        fun more hmore => ?_
      rw [whenArm, hsome]
      simp only [Option.bind_eq_bind, Option.bind_some, hrun, hcolon more hmore]
      rfl

theorem defaultArm_finds : Finds place defaultArm text := by
  rcases afterWholeWord?_leads h "default" (by decide) with
    hnone | ⟨after, hafter, hsome⟩
  · exact finds_none fun more => by rw [defaultArm, hnone]; rfl
  · obtain ⟨colon, last, hlast, hcolon⟩ := optionalColon_leads (hafter.dropSpaces []).2
    refine finds_kept ⟨.bare .default "", colon, last⟩ hlast fun more hmore => ?_
    rw [defaultArm, hsome]
    simp only [Option.bind_eq_bind, Option.bind_some, (hafter.dropSpaces more).1,
      hcolon more hmore]
    rfl

theorem extendsPath_finds : Finds place extendsPath text :=
  (keywordLine_finds h (by decide) _).orElse (keywordLine_finds h (by decide) _)

theorem namedBlock_finds : Finds place namedBlock text := by
  rcases afterWholeWord?_leads h "block" (by decide) with hnone | ⟨after, hafter, hsome⟩
  · exact finds_none fun more => by rw [namedBlock, hnone]; rfl
  · have hdrop := hafter.dropSpaces place.text
    obtain ⟨mode, left, hleft, hmode⟩ : ∃ mode left, Leads left
        ∧ (modeWord? (Text.dropSpaces after ++ place.text)).getD
          (.replace, Text.dropSpaces after ++ place.text) = (mode, left ++ place.text) := by
      rcases modeWord?_leads hdrop.2 with hnone | ⟨mode, left, hleft, hmode⟩
      · exact ⟨.replace, _, hdrop.2, by rw [hnone]; rfl⟩
      · exact ⟨mode, left, hleft, by rw [hmode]; rfl⟩
    refine .past ⟨.block (String.ofList (Text.splitLine (left ++ place.text)).1) mode, false, _⟩
      (splitLine_past hleft place) ?_
    rw [namedBlock, hsome]
    simp only [Option.bind_eq_bind, Option.bind_some, hdrop.1, hmode]
    rfl

omit h in
theorem mem_takeWhile_skip {c : Char} (word : List Char) (hword : ∀ c ∈ word, p c = true)
    (hc : c ∉ word) (before after : List Char) :
    c ∈ (before ++ (word ++ after)).takeWhile p ↔ c ∈ (before ++ after).takeWhile p := by
  induction before with
  | nil =>
      simp only [List.nil_append, List.takeWhile_append_of_pos hword, List.mem_append]
      exact ⟨fun hmem => hmem.resolve_left hc, .inr⟩
  | cons d before ih =>
      simp only [List.cons_append, List.takeWhile_cons]
      split
      · simp only [List.mem_cons, ih]
      · exact Iff.rfl

omit h in
theorem uptoLastParen?_closing (place : BareShorthand) (text : List Char) :
    Closing uptoLastParen? place text :=
  closing place text uptoLastParen?_eq_some_iff
    (fun _ left => and_congr_right fun _ => not_congr
      (mem_takeWhile_skip "div".toList (List.all_eq_true.mp (by decide)) (by decide) left
        place.text).symm)
    fun inside rest => and_congr_left fun _ => by simp

omit h in
theorem uptoFirstParen?_closing (place : BareShorthand) (text : List Char) :
    Closing uptoFirstParen? place text :=
  closing place text uptoFirstParen?_eq_some_iff (fun _ _ => Iff.rfl) fun inside rest => by simp

omit h in
/-- Without a list behind its name, a definition has no parameters. -/
theorem mixinHead_bare {after name left : List Char}
    (hword : afterWord? "mixin".toList text = some after)
    (hname : spacedRun? 1 Text.isNamePart after = some (name, left))
    (hlist : (Text.dropSpaces left).head? ≠ some '(') :
    mixinHead text = some ⟨.mixin (String.ofList name) none, false, left⟩ := by
  rw [mixinHead, hword]
  simp only [Option.bind_eq_bind, Option.bind_some, hname]
  split
  · next heq => exact absurd (congrArg List.head? heq) hlist
  · rfl

omit h in
/-- The parameters end at the last parenthesis, and there are none without one. -/
theorem mixinHead_list {after name left inside : List Char}
    (hword : afterWord? "mixin".toList text = some after)
    (hname : spacedRun? 1 Text.isNamePart after = some (name, left))
    (hlist : Text.dropSpaces left = '(' :: inside) :
    mixinHead text = (uptoLastParen? inside).elim
      (some ⟨.mixin (String.ofList name) none, false, left⟩)
      fun run => some ⟨.mixin (String.ofList name) (some (String.ofList run.1)), false, run.2⟩ := by
  rw [mixinHead, hword]
  simp only [Option.bind_eq_bind, Option.bind_some, hname, hlist]
  cases uptoLastParen? inside <;> rfl

theorem mixinHead_finds : Finds place mixinHead text := by
  rcases afterWord?_leads h "mixin".toList (by decide) with hnone | ⟨after, hafter, hsome⟩
  · exact finds_none fun more => by rw [mixinHead, hnone]; rfl
  · rcases spacedRun?_leads (p := Text.isNamePart) hafter 1 (by decide) with
      hrun | ⟨name, left, hleft, hrun⟩
    · refine finds_none fun more => ?_
      rw [mixinHead, hsome]
      simp only [Option.bind_eq_bind, Option.bind_some, hrun]
      rfl
    · have hinside := (hleft.dropSpaces []).2
      obtain ⟨c, inside, hc⟩ := List.exists_cons_of_ne_nil hinside.ne_nil
      rw [hc] at hinside
      have hlist : ∀ more, Text.dropSpaces (left ++ more) = c :: (inside ++ more) := fun more => by
        rw [(hleft.dropSpaces more).1, hc, List.cons_append]
      by_cases hparen : c = '('
      · subst hparen
        have hhead := fun more => mixinHead_list (hsome more) (hrun more) (hlist more)
        rcases uptoLastParen?_closing place inside with
          ⟨hbare, hfull⟩ | ⟨args, last, heq, hbare, hfull⟩ | ⟨args, rest, hrest, hbare, -⟩
        · refine .kept ⟨.mixin (String.ofList name) none, false, left⟩ (.inr hleft) ?_ ?_
          · rw [hhead, hbare]
            rfl
          · rw [hhead, hfull]
            rfl
        · have hlast : Leads last := by
            rw [heq] at hinside
            have hwhole : Leads (('(' :: args) ++ ')' :: last) := hinside
            exact hwhole.behind (by decide) (by decide)
          refine .kept ⟨.mixin (String.ofList name) (some (String.ofList args)), false, last⟩
            (.inr hlast) ?_ ?_
          · rw [hhead, hbare]
            rfl
          · rw [hhead, hfull]
            rfl
        · exact finds_past (by rw [hhead, hbare]; rfl) hrest
      · refine finds_kept ⟨.mixin (String.ofList name) none, false, left⟩ (.inr hleft)
          fun more _ => mixinHead_bare (hsome more) (hrun more) ?_
        rw [hlist]
        simpa using hparen

omit h in
/-- Without a list behind its name, a call has no arguments. -/
theorem mixinCall_bare {after name left : List Char} (hsign : afterWord? ['+'] text = some after)
    (hname : run? Text.isNamePart after = some (name, left))
    (hlist : (Text.dropSpaces left).head? ≠ some '(') :
    mixinCall text = some ⟨.call (String.ofList name) none, false, left⟩ := by
  rw [mixinCall, hsign]
  simp only [Option.bind_eq_bind, Option.bind_some, hname]
  split
  · next heq => exact absurd (congrArg List.head? heq) hlist
  · rfl

omit h in
/-- The arguments end at the first parenthesis, and what starts like an attribute is none. -/
theorem mixinCall_list {after name left inside : List Char}
    (hsign : afterWord? ['+'] text = some after)
    (hname : run? Text.isNamePart after = some (name, left))
    (hlist : Text.dropSpaces left = '(' :: inside) :
    mixinCall text = (uptoFirstParen? inside).elim
      (some ⟨.call (String.ofList name) none, false, left⟩)
      fun run =>
        if attributeLike run.1 then some ⟨.call (String.ofList name) none, false, left⟩
        else some ⟨.call (String.ofList name) (some (String.ofList run.1)), false, run.2⟩ := by
  rw [mixinCall, hsign]
  simp only [Option.bind_eq_bind, Option.bind_some, hname, hlist]
  cases uptoFirstParen? inside <;> rfl

theorem mixinCall_finds : Finds place mixinCall text := by
  rcases afterWord?_leads h ['+'] (by decide) with hnone | ⟨after, hafter, hsome⟩
  · exact finds_none fun more => by rw [mixinCall, hnone]; rfl
  · rcases run?_leads (p := Text.isNamePart) hafter (by decide) with
      hrun | ⟨name, left, hleft, hrun⟩
    · refine finds_none fun more => ?_
      rw [mixinCall, hsome]
      simp only [Option.bind_eq_bind, Option.bind_some, hrun]
      rfl
    · have hinside := (hleft.dropSpaces []).2
      obtain ⟨c, inside, hc⟩ := List.exists_cons_of_ne_nil hinside.ne_nil
      rw [hc] at hinside
      have hlist : ∀ more, Text.dropSpaces (left ++ more) = c :: (inside ++ more) := fun more => by
        rw [(hleft.dropSpaces more).1, hc, List.cons_append]
      by_cases hparen : c = '('
      · subst hparen
        have hcall := fun more => mixinCall_list (hsome more) (hrun more) (hlist more)
        have hunclosed : ∀ {more}, uptoFirstParen? (inside ++ more) = none →
            mixinCall (text ++ more)
              = some ⟨.call (String.ofList name) none, false, left ++ more⟩ := fun hfound => by
          rw [hcall, hfound]
          rfl
        have hlike : ∀ {more args rest}, uptoFirstParen? (inside ++ more) = some (args, rest) →
            attributeLike args = true → mixinCall (text ++ more)
              = some ⟨.call (String.ofList name) none, false, left ++ more⟩ :=
          fun hfound hargs => by
            rw [hcall, hfound]
            exact if_pos hargs
        have hargs : ∀ {more args rest}, uptoFirstParen? (inside ++ more) = some (args, rest) →
            attributeLike args = false → mixinCall (text ++ more)
              = some ⟨.call (String.ofList name) (some (String.ofList args)), false, rest⟩ :=
          fun hfound hargs => by
            rw [hcall, hfound]
            exact if_neg (Bool.eq_false_iff.mp hargs)
        let without : Match := ⟨.call (String.ofList name) none, false, left⟩
        rcases uptoFirstParen?_closing place inside with
          ⟨hbare, hfull⟩ | ⟨args, last, heq, hbare, hfull⟩ | ⟨args, rest, hrest, hbare, hfull⟩
        · exact .kept without (.inr hleft) (hunclosed hbare) (hunclosed hfull)
        · cases hstart : attributeLike args with
          | true => exact .kept without (.inr hleft) (hlike hbare hstart) (hlike hfull hstart)
          | false =>
              have hlast : Leads last := by
                rw [heq] at hinside
                have hwhole : Leads (('(' :: args) ++ ')' :: last) := hinside
                exact hwhole.behind (by decide) (by decide)
              exact .kept ⟨.call (String.ofList name) (some (String.ofList args)), false, last⟩
                (.inr hlast) (hargs hbare hstart) (hargs hfull hstart)
        · -- what the arguments start with stands in front of the colon
          have hcolon : Leads inside := hinside.tail (by decide) (by decide)
          obtain ⟨like, hstart⟩ := attributeLike_leads hcolon
          cases like with
          | true =>
              exact .kept without (.inr hleft) (hlike hbare (hstart _)) (hlike hfull (hstart _))
          | false => exact finds_past (hargs hbare (hstart _)) hrest
      · refine finds_kept ⟨.call (String.ofList name) none, false, left⟩ (.inr hleft)
          fun more _ => mixinCall_bare (hsome more) (hrun more) ?_
        rw [hlist]
        simpa using hparen

theorem conditional_finds : Finds place conditional text :=
  (conditionOf_finds h (by decide) _).orElse
    ((conditionOf_finds h (by decide) _).orElse
      ((conditionOf_finds h (by decide) _).orElse (conditionOf_finds h (by decide) _)))

theorem signedCode_finds {sign : String} (hsign : ':' ∉ sign.toList) (buffer escape : Bool) :
    Finds place (signedCode sign buffer escape) text := by
  rcases afterWord?_leads h _ hsign with hnone | ⟨after, hafter, hsome⟩
  · exact finds_none fun more => by rw [signedCode, hnone]; rfl
  · obtain ⟨line, rest, hrest, hrun⟩ := run?_past hafter place
    refine .past ⟨.code (String.ofList (Text.trim line)) buffer escape, false, rest⟩ hrest ?_
    rw [signedCode, hsome]
    simp only [Option.bind_eq_bind, Option.bind_some, hrun]
    rfl

theorem loopSource?_cases (place : BareShorthand) :
    Takes loopSource? text
      ∨ ∃ body left, left <:+ place.name ++ place.rest
        ∧ loopSource? (text ++ place.text) = some (body, left) := by
  have hsign : inLine place.sign = true :=
    place.forall_sign (P := (inLine · = true)) (by decide) (by decide)
  by_cases hhead : (text.head? == some ' ') = true
  · have hdrop := fun more => (h.dropSpaces more).1
    rcases afterWord?_leads (h.dropSpaces []).2 "in".toList (by decide) with
      hnone | ⟨after, hafter, hsome⟩
    · refine .inl (.inl fun more => ?_)
      simp only [loopSource?, h.head?_append, if_pos hhead, hdrop, hnone, Option.bind_eq_bind,
        Option.bind_none]
    · rcases spacedRun?_cases hafter place 0 (by decide) (by decide) hsign with
        (hrun | ⟨body, left, hleft, hrun⟩) | ⟨body, left, hleft, hrun⟩
      · refine .inl (.inl fun more => ?_)
        simp only [loopSource?, h.head?_append, if_pos hhead, hdrop, hsome, Option.bind_eq_bind,
          Option.bind_some, hrun]
      · refine .inl (.inr ⟨body, left, hleft, fun more => ?_⟩)
        simp only [loopSource?, h.head?_append, if_pos hhead, hdrop, hsome, Option.bind_eq_bind,
          Option.bind_some, hrun]
      · refine .inr ⟨body, left, hleft, ?_⟩
        simp only [loopSource?, h.head?_append, if_pos hhead, hdrop, hsome, Option.bind_eq_bind,
          Option.bind_some, hrun]
  · refine .inl (.inl fun more => ?_)
    simp only [loopSource?, h.head?_append, if_neg hhead]

theorem eachHead_finds : Finds place eachHead text := by
  obtain ⟨line, hline, hdash⟩ := dropDash_leads h
  have hword : Passes (fun text => afterWord? "each".toList text
      <|> afterWord? "for".toList text) line :=
    (afterWord?_leads hline _ (by decide)).orElse (afterWord?_leads hline _ (by decide))
  rcases hword with hnone | ⟨after, hafter, hsome⟩
  · dsimp only at hnone
    exact finds_none fun more => by rw [eachHead, hdash, hnone]; rfl
  · dsimp only at hsome
    by_cases hhead : after.head? = some ' '
    · have hdrop := fun more => (hafter.dropSpaces more).1
      rcases run?_leads (p := Text.isWord) (hafter.dropSpaces []).2 (by decide) with
        hrun | ⟨name, behind, hbehind, hrun⟩
      · refine finds_none fun more => ?_
        simp only [eachHead, hdash, hsome, Option.bind_eq_bind, Option.bind_some,
          hafter.head?_append, hhead, hdrop, hrun]
        rfl
      · obtain ⟨key, left, hleft, hkey⟩ := loopKey_leads hbehind
        rcases loopSource?_cases hleft place with
          (hsource | ⟨source, rest, hrest, hsource⟩) | ⟨source, rest, hrest, hsource⟩
        · refine finds_none fun more => ?_
          simp only [eachHead, hdash, hsome, Option.bind_eq_bind, Option.bind_some,
            hafter.head?_append, hhead, hdrop, hrun, hkey, hsource]
          rfl
        · refine finds_kept ⟨.each (String.ofList name) key (String.ofList source), false, rest⟩
            (.inr hrest) fun more _ => ?_
          simp only [eachHead, hdash, hsome, Option.bind_eq_bind, Option.bind_some,
            hafter.head?_append, hhead, hdrop, hrun, hkey, hsource]
          rfl
        · refine .past ⟨.each (String.ofList name) key (String.ofList source), false, rest⟩
            hrest ?_
          simp only [eachHead, hdash, hsome, Option.bind_eq_bind, Option.bind_some,
            hafter.head?_append, hhead, hdrop, hrun, hkey, hsource]
          rfl
    · have hne : (after.head? != some ' ') = true := bne_iff_ne.mpr hhead
      refine finds_none fun more => ?_
      simp only [eachHead, hdash, hsome, Option.bind_eq_bind, Option.bind_some, Option.bind_none,
        hafter.head?_append, if_pos hne]

theorem assignment_finds : Finds place assignment text := by
  rcases run?_leads (p := Text.isWord) h (by decide) with hnone | ⟨name, after, hafter, hsome⟩
  · exact finds_none fun more => by rw [assignment, hnone]; rfl
  · by_cases hhead : after.head? = some ' '
    · have hdrop := fun more => (hafter.dropSpaces more).1
      rcases afterWord?_leads (hafter.dropSpaces []).2 ['='] (by decide) with
        hequals | ⟨behind, hbehind, hequals⟩
      · refine finds_none fun more => ?_
        simp only [assignment, hsome, Option.bind_eq_bind, Option.bind_some,
          hafter.head?_append, hhead, hdrop, hequals]
        rfl
      · have hsign : inAssigned place.sign = true :=
          place.forall_sign (P := (inAssigned · = true)) (by decide) (by decide)
        rcases spacedRun?_cases hbehind (p := inAssigned) place 0 (by decide) (by decide) hsign with
          (hrun | ⟨value, left, hleft, hrun⟩) | ⟨value, left, hleft, hrun⟩
        · refine finds_none fun more => ?_
          simp only [assignment, hsome, Option.bind_eq_bind, Option.bind_some,
            hafter.head?_append, hhead, hdrop, hequals, hrun]
          rfl
        · obtain ⟨rest, hrest, hsemicolon⟩ := dropSemicolon_leads hleft
          refine finds_kept ⟨controlCode ("var " ++ String.ofList name ++ " = ("
            ++ String.ofList (Text.trimEnd value) ++ ");"), false, rest⟩ (.inr hrest)
            fun more _ => ?_
          simp only [assignment, hsome, Option.bind_eq_bind, Option.bind_some,
            hafter.head?_append, hhead, hdrop, hequals, hrun, hsemicolon]
          rfl
        · have hrest : dropSemicolon left <:+ left := by
            unfold dropSemicolon
            split
            · exact (List.dropWhile_suffix _).trans (List.suffix_cons _ _)
            · exact List.suffix_rfl
          refine .past ⟨controlCode ("var " ++ String.ofList name ++ " = ("
            ++ String.ofList (Text.trimEnd value) ++ ");"), false, dropSemicolon left⟩
            (hrest.trans hleft) ?_
          simp only [assignment, hsome, Option.bind_eq_bind, Option.bind_some,
            hafter.head?_append, hhead, hdrop, hequals, hrun]
          rfl
    · have hne : (after.head? != some ' ') = true := bne_iff_ne.mpr hhead
      refine finds_none fun more => ?_
      simp only [assignment, hsome, Option.bind_eq_bind, Option.bind_some, Option.bind_none,
        hafter.head?_append, if_pos hne]

theorem codeLine_finds : Finds place codeLine text :=
  (signedCode_finds h (by decide) true false).orElse
    ((signedCode_finds h (by decide) true true).orElse (signedCode_finds h (by decide) false false))

theorem textLine_finds : Finds place textLine text := by
  obtain ⟨line, rest, hrest, hrun⟩ := run?_past h place
  exact finds_past (by rw [textLine, hrun]; rfl) hrest

theorem tagName_finds : Finds place tagName text := by
  have htake := fun more => takeWhile_append_of_mem h.space_mem (p := inTagName) rfl more
  have hdrop := fun more => dropWhile_append_of_mem h.space_mem (p := inTagName) rfl more
  by_cases hword : (text.head?.any Text.isWord) = true
  · have hsplit : Leads (text.takeWhile inTagName ++ text.dropWhile inTagName) := by
      rw [List.takeWhile_append_dropWhile]
      exact h
    have hname : ' ' ∉ text.takeWhile inTagName := fun hmem =>
      Bool.false_ne_true (List.mem_takeWhile_imp (p := inTagName) hmem)
    have hmem : ' ' ∈ text.dropWhile inTagName :=
      (List.mem_append.mp hsplit.space_mem).resolve_left hname
    obtain ⟨c, after, hafter⟩ := List.exists_cons_of_ne_nil (List.ne_nil_of_mem hmem)
    rw [hafter] at hsplit hdrop
    obtain ⟨rest, hrest, hlast, hbehind⟩ : ∃ rest, (Leads rest ∨ ∀ c ∈ rest, c = ' ')
        ∧ (¬((text.takeWhile inTagName).getLast? == some ':') = true → Leads rest)
        ∧ ∀ more : List Char, (if (c :: after ++ more).head? == some '/' then
          (c :: after ++ more).tail else c :: after ++ more) = rest ++ more := by
      by_cases hc : c = '/'
      · subst hc
        have hleads : Leads after := hsplit.behind (by decide) (by decide)
        exact ⟨after, .inl hleads, fun _ => hleads, fun more => rfl⟩
      · refine ⟨c :: after, hsplit.suffix, fun hcolon => ?_, fun more => if_neg ?_⟩
        · refine hsplit.suffix.resolve_right fun hall => hcolon ?_
          rw [hsplit.getLast? hname hall]
          rfl
        · simpa using hc
    have hform : ∀ more, tagName (text ++ more)
        = if (text.takeWhile inTagName).getLast? == some ':' then
            some ⟨.tag (String.ofList (text.takeWhile inTagName).dropLast) false, true,
              Text.dropSpaces (rest ++ more)⟩
          else some ⟨.tag (String.ofList (text.takeWhile inTagName))
            (c == '/'), false, rest ++ more⟩ := by
      intro more
      rw [tagName, h.head?_append, if_pos hword]
      simp only [htake, hdrop, hbehind]
      rfl
    by_cases hcolon : ((text.takeWhile inTagName).getLast? == some ':') = true
    · obtain ⟨left, hleft, hspaces⟩ := exists_dropSpaces hrest
      refine finds_kept ⟨.tag (String.ofList (text.takeWhile inTagName).dropLast) false, true, left⟩
        hleft fun more hmore => ?_
      rw [hform, if_pos hcolon, hspaces more hmore]
      rfl
    · refine finds_kept ⟨.tag (String.ofList (text.takeWhile inTagName)) (c == '/'), false, rest⟩
        (.inr (hlast hcolon)) fun more _ => ?_
      rw [hform, if_neg hcolon]
      rfl
  · refine finds_none fun more => ?_
    rw [tagName, h.head?_append, if_neg hword]

theorem filterName_finds : Finds place filterName text := by
  obtain ⟨c, line, rfl⟩ := List.exists_cons_of_ne_nil h.ne_nil
  by_cases hc : c = ':'
  · subst hc
    have hline : Leads ([':'] ++ line) := h
    have hsign : ∀ more, filterName (':' :: line ++ more) = (run? Text.isWord (line ++ more)).bind
        fun run => some ⟨.bare .filter (String.ofList run.1), false, run.2⟩ := fun more => by
      rw [filterName, signed]
      simp only [List.cons_append, afterWord?, beq_self_eq_true, if_true, Option.bind_eq_bind,
        Option.bind_some]
      rfl
    rcases hline.suffix with hline | hall
    · rcases run?_leads (p := Text.isWord) hline (by decide) with hnone | ⟨name, left, hleft, hrun⟩
      · exact finds_none fun more => by rw [hsign, hnone]; rfl
      · exact finds_kept ⟨.bare .filter (String.ofList name), false, left⟩ (.inr hleft)
          fun more _ => by rw [hsign, hrun]; rfl
    · obtain ⟨d, line, rfl⟩ := List.exists_cons_of_ne_nil
        (List.ne_nil_of_mem ((List.mem_cons.mp h.space_mem).resolve_left (by decide)))
      obtain rfl := hall d (List.mem_cons_self ..)
      exact finds_none fun more => by rw [hsign]; rfl
  · refine finds_none fun more => ?_
    simp [filterName, signed, afterWord?, Ne.symm hc]

theorem comment_finds : Finds place comment text := by
  have hdrop := h.dropSpaces place.text
  rcases afterWord?_leads hdrop.2 "//".toList (by decide) with
    hnone | ⟨after, hafter, hsome⟩
  · refine finds_none fun more => ?_
    rw [comment, (h.dropSpaces more).1, hnone]
    rfl
  · obtain ⟨c, line, rfl⟩ := List.exists_cons_of_ne_nil hafter.ne_nil
    by_cases hc : c = '-'
    · subst hc
      have hline : Leads line := hafter.tail (by decide) (by decide)
      refine .past
        ⟨.comment (String.ofList (Text.splitLine (line ++ place.text)).1) false, false, _⟩
        (splitLine_past hline place) ?_
      rw [comment, hdrop.1, hsome]
      rfl
    · refine .past ⟨.comment (String.ofList (Text.splitLine (c :: line ++ place.text)).1) true,
        false, _⟩ (splitLine_past hafter place) ?_
      rw [comment, hdrop.1, hsome]
      simp only [Option.bind_eq_bind, Option.bind_some, List.cons_append]
      split
      · next heq => exact absurd (List.cons.inj heq).1 hc
      · rfl

end Forms

/-! ## The first form that matches -/

theorem findSome?_finds {place : BareShorthand} (forms : List Form)
    (h : ∀ form ∈ forms, Finds place form text) :
    Finds place (fun text => forms.findSome? fun form => form text) text := by
  induction forms with
  | nil => exact .none rfl rfl
  | cons form forms ih =>
      have hform := h form (List.mem_cons_self ..)
      have hforms := ih fun form hmem => h form (List.mem_cons_of_mem _ hmem)
      have heq : (fun text => (form :: forms).findSome? fun form => form text)
          = fun text => form text <|> forms.findSome? fun form => form text := by
        funext text
        rw [List.findSome?_cons]
        cases form text <;> rfl
      rw [heq]
      exact hform.orElse hforms

/-- The first form that matches finds the same in front of the place, or takes the place in. -/
theorem first?_finds {place : BareShorthand} (h : Leads text) : Finds place first? text := by
  refine findSome?_finds ordered ?_
  simp only [ordered, List.forall_mem_cons, List.not_mem_nil, false_imp_iff, implies_true, and_true]
  exact ⟨yieldMark_finds h, doctype_finds h, interpolatedTag_finds h,
    keywordLine_finds h (by decide) _, whenArm_finds h, defaultArm_finds h, extendsPath_finds h,
    keywordLine_finds h (by decide) _, keywordLine_finds h (by decide) _, namedBlock_finds h,
    keywordLine_finds h (by decide) _, mixinHead_finds h, mixinCall_finds h, conditional_finds h,
    eachHead_finds h, keywordLine_finds h (by decide) _, assignment_finds h, tagName_finds h,
    filterName_finds h, codeLine_finds h, signed_finds h (by decide) (by decide) _,
    signed_finds h (by decide) (by decide) _, comment_finds h, textLine_finds h⟩

/-! ## Shorthands -/

theorem signed_eq_some {sign : Char} {kind : TokenKind} {found : Match}
    (h : signed sign p kind text = some found) :
    ∃ name, text = sign :: (name ++ found.rest) ∧ ∀ c ∈ name, p c = true := by
  simp only [signed, run?, Option.bind_eq_bind, Option.bind_eq_some_iff, Option.pure_def,
    Option.some.injEq, Prod.exists] at h
  obtain ⟨after, hafter, name, rest, hrun, rfl⟩ := h
  split at hrun
  · cases hrun
  · obtain ⟨rfl, rfl⟩ := Prod.mk.inj (Option.some.inj hrun)
    refine ⟨after.takeWhile p, ?_, fun c hc => List.mem_takeWhile_imp hc⟩
    rw [afterWord?_eq_some_iff.mp hafter, List.takeWhile_append_dropWhile]
    rfl

/-- The forms of shorthands are two, and no other form gives a token of their kinds. -/
theorem ordered_kinds : ∀ form ∈ ordered, form = idName ∨ form = className
    ∨ ∃ kind, HasKind kind form ∧ kind ≠ .idName ∧ kind ≠ .className := by
  have hother : ∀ {kind : TokenKind} {form : Form}, HasKind kind form →
      kind ≠ .idName ∧ kind ≠ .className → form = idName ∨ form = className
        ∨ ∃ kind, HasKind kind form ∧ kind ≠ .idName ∧ kind ≠ .className :=
    fun hhas hne => .inr (.inr ⟨_, hhas, hne⟩)
  simp only [ordered, List.forall_mem_cons]
  exact ⟨hother yieldMark_hasKind (by decide), hother doctype_hasKind (by decide),
    hother interpolatedTag_hasKind (by decide), hother caseHead_hasKind (by decide),
    hother whenArm_hasKind (by decide), hother defaultArm_hasKind (by decide),
    hother extendsPath_hasKind (by decide), hother appendBlock_hasKind (by decide),
    hother prependBlock_hasKind (by decide), hother namedBlock_hasKind (by decide),
    hother includePath_hasKind (by decide), hother mixinHead_hasKind (by decide),
    hother mixinCall_hasKind (by decide), hother conditional_hasKind (by decide),
    hother eachHead_hasKind (by decide), hother whileHead_hasKind (by decide),
    hother assignment_hasKind (by decide), hother tagName_hasKind (by decide),
    hother (signed_hasKind ':' _ _) (by decide), hother codeLine_hasKind (by decide),
    .inl trivial, .inr (.inl trivial), hother comment_hasKind (by decide),
    hother textLine_hasKind (by decide), fun form h => absurd h List.not_mem_nil⟩

/-- **A shorthand is a sign and a name**, and nothing in front of them. -/
theorem first?_shorthand {found : Match} (h : first? text = some found)
    (hkind : found.lexeme.kind = .idName ∨ found.lexeme.kind = .className) :
    ∃ sign name, text = sign :: (name ++ found.rest) ∧ (sign = '#' ∨ sign = '.')
      ∧ ∀ c ∈ name, Text.isNamePart c = true := by
  obtain ⟨form, hform, hmatch⟩ := List.exists_of_findSome?_eq_some h
  rcases ordered_kinds form hform with rfl | rfl | ⟨kind, hhas, hid, hclass⟩
  · obtain ⟨name, htext, hname⟩ := signed_eq_some hmatch
    exact ⟨'#', name, htext, .inl rfl, hname⟩
  · obtain ⟨name, htext, hname⟩ := signed_eq_some hmatch
    exact ⟨'.', name, htext, .inr rfl, hname⟩
  · rw [hhas hmatch] at hkind
    exact (hkind.elim hid hclass).elim

end Form

namespace BareShorthand

variable (place : BareShorthand)

/-- A token of the kind that the shorthand is. -/
def token (line : Int) : Token := .bare place.kind line (String.ofList place.name)

/-- The shorthand is read at the place. -/
theorem first?_bare :
    first? place.text = some ⟨.bare place.kind (String.ofList place.name), false, place.rest⟩ := by
  have hrun : run? Text.isNamePart (place.name ++ place.rest) = some (place.name, place.rest) :=
    run?_line place.inName place.name_ne place.stops
  have hbrace : afterWord? ['{'] (place.name ++ place.rest) = none := by
    obtain ⟨c, name, hname⟩ := List.exists_cons_of_ne_nil place.name_ne
    have hc : '{' ≠ c := by
      rintro rfl
      exact absurd (place.inName _ (hname ▸ List.mem_cons_self ..)) (by decide)
    simp [hname, afterWord?, hc]
  have hkind := place.sign_eq
  obtain ⟨sign, hsign⟩ : ∃ sign, place.sign = sign := ⟨_, rfl⟩
  rw [BareShorthand.text, kind, hsign]
  rw [hsign] at hkind
  have hid : Text.isWord '#' = false := by decide
  have hclass : Text.isWord '.' = false := by decide
  rcases hkind with rfl | rfl
  · have hword : run? Text.isWord ('#' :: (place.name ++ place.rest)) = none := by
      simp [run?, hid]
    simp [first?, ordered, yieldMark, doctype, interpolatedTag, caseHead, whenArm, defaultArm,
      extendsPath, appendBlock, prependBlock, namedBlock, includePath, mixinHead, mixinCall,
      conditional, conditionOf, eachHead, dropDash, whileHead, keywordLine, assignment, tagName,
      filterName, codeLine, signedCode, idName, signed, afterWholeWord?, afterWord?, hid, hword,
      hbrace, hrun]
  · have hword : run? Text.isWord ('.' :: (place.name ++ place.rest)) = none := by
      simp [run?, hclass]
    simp [first?, ordered, yieldMark, doctype, interpolatedTag, caseHead, whenArm, defaultArm,
      extendsPath, appendBlock, prependBlock, namedBlock, includePath, mixinHead, mixinCall,
      conditional, conditionOf, eachHead, dropDash, whileHead, keywordLine, assignment, tagName,
      filterName, codeLine, signedCode, idName, className, signed, afterWholeWord?, afterWord?,
      hclass, hword, hrun]

/-- The name of the element that a shorthand without one is for. -/
def divName : ElementName where
  text := "div"
  starts := by decide
  inside := List.all_eq_true.mp (by decide)
  uncolonned := by decide
  free := by decide

/-- With the name in front, an element is read. -/
theorem first?_full : first? place.full = some ⟨.tag "div" false, false, place.text⟩ := by
  have hends : EndsName place.text := by
    rintro c ⟨rfl⟩
    exact place.forall_sign (P := fun c => inTagName c = false ∧ c ≠ ' ' ∧ c ≠ '/') (by decide)
      (by decide)
  exact ElementName.first? divName hends

end BareShorthand

end Stencil
