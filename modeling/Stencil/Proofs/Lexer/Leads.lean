import Stencil.Proofs.Lexer.Arguments
import Stencil.Proofs.Lexer.Tails

/-! # Leads — a line up to a statement behind a colon

    A statement may stand on the line of the element or the arm that it belongs
    to, behind a colon and spaces.  A part of a line that ends in these leads to
    the statement (`Leads`).  Here that statement is a shorthand, and the line is
    read as it is and with the name `div` put in front of the shorthand.

    A form finds nothing in both lines, or the same in both and leaves a part that
    still leads to the statement, or all of it; or it takes the place of the
    statement into what it finds (`Finds`).  The pieces that forms are made of
    stop in front of the colon, unless they take any character of a line, and a
    form that has taken the place cannot fail any more. -/

namespace Stencil

open Form

/-- A part of a line that ends in a colon and spaces, one of them at least. -/
structure Leads (text : List Char) : Prop where
  oneLine : '\n' ∉ text
  colon : ∃ before spaces, text = before ++ ':' :: ' ' :: spaces ∧ ∀ c ∈ spaces, c = ' '

/-- A shorthand for an element without a name, and what stands behind it. -/
structure BareShorthand where
  sign : Char
  name : List Char
  rest : List Char
  sign_eq : sign = '#' ∨ sign = '.'
  name_ne : name ≠ []
  inName : ∀ c ∈ name, Text.isNamePart c = true
  stops : Stops Text.isNamePart rest

namespace BareShorthand

variable (place : BareShorthand)

/-- The text from the shorthand on. -/
def text : List Char := place.sign :: (place.name ++ place.rest)

/-- The text with the name of the element in front. -/
def full : List Char := "div".toList ++ place.text

/-- The kind of token that the shorthand is. -/
def kind : TokenKind := if place.sign = '#' then .idName else .className

theorem forall_sign {P : Char → Prop} (hid : P '#') (hclass : P '.') : P place.sign := by
  rcases place.sign_eq with h | h
  · exact h ▸ hid
  · exact h ▸ hclass

/-- A closing parenthesis behind the name of the element is one behind the sign of the shorthand. -/
theorem exists_text_of_full {behind left : List Char} (h : place.full = behind ++ ')' :: left) :
    ∃ more, behind = "div".toList ++ more ∧ place.text = more ++ ')' :: left := by
  rcases List.append_eq_append_iff.mp h with ⟨more, rfl, hmore⟩ | ⟨more, hdiv, hmore⟩
  · exact ⟨more, rfl, hmore⟩
  · have hmem : more = [] ∨ ')' ∈ "div".toList := by
      cases more with
      | nil => exact .inl rfl
      | cons c more => exact .inr (by rw [hdiv, ← (List.cons.inj hmore).1]; simp)
    obtain rfl := hmem.resolve_right (by decide)
    exact ⟨[], by simpa using hdiv.symm, by simpa using hmore.symm⟩

end BareShorthand

variable {before text : List Char} {p : Char → Bool}

/-! ## Parts that lead to a statement -/

theorem takeWhile_append_of_mem {c : Char} (hc : c ∈ text) (hp : p c = false)
    (more : List Char) : (text ++ more).takeWhile p = text.takeWhile p := by
  rw [List.takeWhile_append, if_neg]
  intro hlength
  have hall := List.takeWhile_eq_self_iff.mp (List.Sublist.eq_of_length
    (List.takeWhile_sublist p) hlength) c hc
  exact Bool.false_ne_true (hp.symm.trans hall)

theorem dropWhile_append_of_mem {c : Char} (hc : c ∈ text) (hp : p c = false)
    (more : List Char) : (text ++ more).dropWhile p = text.dropWhile p ++ more := by
  rw [List.dropWhile_append, if_neg]
  rw [List.isEmpty_iff, List.dropWhile_eq_nil_iff]
  exact fun hall => Bool.false_ne_true (hp.symm.trans (hall c hc))

namespace Leads

theorem colon_mem (h : Leads text) : ':' ∈ text := by
  obtain ⟨before, spaces, rfl, -⟩ := h.colon
  simp

theorem space_mem (h : Leads text) : ' ' ∈ text := by
  obtain ⟨before, spaces, rfl, -⟩ := h.colon
  simp

theorem ne_nil (h : Leads text) : text ≠ [] := List.ne_nil_of_mem h.colon_mem

/-- What is left of a part that leads to a statement still does, or is nothing but spaces. -/
theorem suffix (h : Leads (before ++ text)) : Leads text ∨ ∀ c ∈ text, c = ' ' := by
  have honeLine : '\n' ∉ text := fun hmem => h.oneLine (List.mem_append_right before hmem)
  obtain ⟨above, spaces, heq, hspaces⟩ := h.colon
  rcases List.append_eq_append_iff.mp heq with ⟨more, -, rfl⟩ | ⟨more, -, hmore⟩
  · exact .inl ⟨honeLine, more, spaces, rfl, hspaces⟩
  · cases more with
    | nil => exact .inl ⟨honeLine, [], spaces, hmore.symm, hspaces⟩
    | cons c more =>
        refine .inr fun d hd => ?_
        have hmem : d ∈ ' ' :: spaces := by
          rw [(List.cons.inj hmore).2]
          exact List.mem_append_right more hd
        rcases List.mem_cons.mp hmem with rfl | hd
        · rfl
        · exact hspaces d hd

theorem of_mem (h : Leads (before ++ text)) {c : Char} (hc : c ∈ text) (hspace : c ≠ ' ') :
    Leads text :=
  h.suffix.resolve_right fun hall => hspace (hall c hc)

/-- Neither the colon nor a space is taken. -/
theorem behind {c : Char} (h : Leads (before ++ c :: text)) (hcolon : c ≠ ':') (hspace : c ≠ ' ') :
    Leads text := by
  have hcons : Leads ([c] ++ text) := h.of_mem (List.mem_cons_self ..) hspace
  have hmem := hcons.colon_mem
  rcases List.mem_cons.mp hmem with heq | hmem
  · exact absurd heq.symm hcolon
  · exact hcons.of_mem hmem (by decide)

theorem tail {c : Char} (h : Leads (c :: text)) (hcolon : c ≠ ':') (hspace : c ≠ ' ') :
    Leads text := by
  have hnil : Leads ([] ++ c :: text) := h
  exact hnil.behind hcolon hspace

/-- What only spaces follow ends in the colon. -/
theorem getLast? (h : Leads (before ++ text)) (hbefore : ' ' ∉ before)
    (hall : ∀ c ∈ text, c = ' ') : before.getLast? = some ':' := by
  have hcolon : ':' ∉ text := fun hmem => absurd (hall _ hmem) (by decide)
  obtain ⟨above, spaces, heq, -⟩ := h.colon
  rcases List.append_eq_append_iff.mp heq with ⟨more, -, rfl⟩ | ⟨more, rfl, hmore⟩
  · exact absurd (List.mem_append_right more (List.mem_cons_self ..)) hcolon
  · cases more with
    | nil =>
        rw [List.nil_append] at hmore
        exact absurd (hmore ▸ List.mem_cons_self ..) hcolon
    | cons c more =>
        obtain ⟨rfl, hspace⟩ := List.cons.inj hmore
        cases more with
        | nil => simp
        | cons d more =>
            obtain ⟨rfl, -⟩ := List.cons.inj hspace
            exact absurd (by simp) hbefore

theorem dropWhile (h : Leads text) (hp : p ':' = false) : Leads (text.dropWhile p) := by
  have hsplit : Leads (text.takeWhile p ++ text.dropWhile p) := by
    rw [List.takeWhile_append_dropWhile]
    exact h
  have hmem := hsplit.colon_mem
  rcases List.mem_append.mp hmem with hmem | hmem
  · exact absurd (List.mem_takeWhile_imp hmem) (by simp [hp])
  · exact hsplit.of_mem hmem (by decide)

theorem dropSpaces (h : Leads text) (more : List Char) :
    Text.dropSpaces (text ++ more) = Text.dropSpaces text ++ more
      ∧ Leads (Text.dropSpaces text) :=
  ⟨dropWhile_append_of_mem h.colon_mem rfl more, h.dropWhile rfl⟩

theorem head?_append (h : Leads text) (more : List Char) : (text ++ more).head? = text.head? := by
  obtain ⟨c, text, rfl⟩ := List.exists_cons_of_ne_nil h.ne_nil
  rfl

/-- A run stops in front of the colon, or goes on behind the part. -/
theorem run_cases (h : Leads text) (hspace : p ' ' = true) (hcolon : p ':' = true) :
    (∃ c after, text.dropWhile p = c :: after ∧ c ≠ ':' ∧ c ≠ ' ' ∧ Leads (c :: after)
        ∧ ∀ more, (text ++ more).takeWhile p = text.takeWhile p
          ∧ (text ++ more).dropWhile p = c :: after ++ more)
      ∨ ∀ c ∈ text, p c = true := by
  by_cases hall : ∀ c ∈ text, p c = true
  · exact .inr hall
  · simp only [not_forall, Bool.not_eq_true] at hall
    obtain ⟨d, hd, hp⟩ := hall
    have hne : text.dropWhile p ≠ [] := fun hnil =>
      Bool.false_ne_true (hp.symm.trans (List.dropWhile_eq_nil_iff.mp hnil d hd))
    obtain ⟨c, after, hafter⟩ := List.exists_cons_of_ne_nil hne
    have hc : p c = false := stops_dropWhile p text c (by rw [hafter]; rfl)
    have hcspace : c ≠ ' ' := fun heq => Bool.false_ne_true ((heq ▸ hc).symm.trans hspace)
    have hccolon : c ≠ ':' := fun heq => Bool.false_ne_true ((heq ▸ hc).symm.trans hcolon)
    have hsplit : Leads (text.takeWhile p ++ c :: after) := by
      rw [← hafter, List.takeWhile_append_dropWhile]
      exact h
    refine .inl ⟨c, after, hafter, hccolon, hcspace,
      hsplit.of_mem (List.mem_cons_self ..) hcspace, fun more => ⟨?_, ?_⟩⟩
    · exact takeWhile_append_of_mem hd hp more
    · rw [dropWhile_append_of_mem hd hp, hafter]

end Leads

/-- Spaces that are dropped go up to the statement at most. -/
theorem exists_dropSpaces (h : Leads text ∨ ∀ c ∈ text, c = ' ') :
    ∃ left, (left = [] ∨ Leads left) ∧ ∀ more : List Char, more.head? ≠ some ' ' →
      Text.dropSpaces (text ++ more) = left ++ more := by
  rcases h with h | h
  · exact ⟨_, .inr (h.dropSpaces []).2, fun more _ => (h.dropSpaces more).1⟩
  · refine ⟨[], .inl rfl, fun more hmore => ?_⟩
    rw [Text.dropSpaces, List.dropWhile_append_of_pos fun c hc => beq_iff_eq.mpr (h c hc)]
    exact dropWhile_stops fun c hc => beq_eq_false_iff_ne.mpr fun heq => hmore (heq ▸ hc)

namespace BareShorthand

variable (place : BareShorthand)

/-- A run that takes all of a part, and the sign, stops behind it. -/
theorem dropWhile_past (hall : ∀ c ∈ text, p c = true) (hsign : p place.sign = true) :
    (text ++ place.text).dropWhile p <:+ place.name ++ place.rest := by
  rw [List.dropWhile_append_of_pos hall, BareShorthand.text, List.dropWhile_cons_of_pos hsign]
  exact List.dropWhile_suffix p

theorem head?_text : place.text.head? ≠ some ' ' :=
  fun h => place.forall_sign (P := (· ≠ ' ')) (by decide) (by decide) (Option.some.inj h)

theorem head?_full : place.full.head? ≠ some ' ' := by
  show some 'd' ≠ some ' '
  decide

end BareShorthand

/-! ## Texts up to a parenthesis -/

namespace Form

theorem uptoFirstParen?_eq_some_iff {inside rest : List Char} :
    uptoFirstParen? text = some (inside, rest)
      ↔ text = inside ++ ')' :: rest ∧ '\n' ∉ inside ∧ ')' ∉ inside := by
  constructor
  · intro h
    unfold uptoFirstParen? at h
    dsimp only at h
    split at h
    · next after hafter =>
        cases h
        have hmem : ∀ c ∈ text.takeWhile (fun c => inLine c && c != ')'), c ≠ '\n' ∧ c ≠ ')' := by
          intro c hc
          have hin := List.mem_takeWhile_imp (p := fun c => inLine c && c != ')') hc
          simpa [inLine] using hin
        refine ⟨?_, fun hc => (hmem _ hc).1 rfl, fun hc => (hmem _ hc).2 rfl⟩
        rw [← hafter, List.takeWhile_append_dropWhile]
    · cases h
  · rintro ⟨rfl, hline, hclosed⟩
    exact uptoFirstParen?_eq (fun c hc heq => hline (heq ▸ hc)) hclosed

/-- The last parenthesis of a line is the first one from its end. -/
theorem exists_last_paren {line left : List Char} {paren : Char}
    (h : line.reverse.dropWhile (· != ')') = paren :: left) :
    ∃ behind, line = left.reverse ++ ')' :: behind ∧ ')' ∉ behind := by
  obtain rfl : paren = ')' := by
    have hstops := stops_dropWhile (· != ')') line.reverse paren (by rw [h]; rfl)
    simpa using hstops
  refine ⟨(line.reverse.takeWhile (· != ')')).reverse, ?_, fun hmem => ?_⟩
  · have hsplit : line.reverse.takeWhile (· != ')') ++ ')' :: left = line.reverse :=
      h ▸ List.takeWhile_append_dropWhile
    have hreverse := congrArg List.reverse hsplit
    rw [List.reverse_reverse, List.reverse_append, List.reverse_cons, List.append_assoc] at hreverse
    exact hreverse.symm
  · have hne := List.mem_takeWhile_imp (p := (· != ')')) (List.mem_reverse.mp hmem)
    exact absurd hne (by decide)

theorem uptoLastParen?_eq_some_iff {inside rest : List Char} :
    uptoLastParen? text = some (inside, rest)
      ↔ text = inside ++ ')' :: rest ∧ '\n' ∉ inside ∧ ')' ∉ rest.takeWhile (· != '\n') := by
  constructor
  · intro h
    unfold uptoLastParen? Text.splitLine at h
    dsimp only at h
    have htext : text = text.takeWhile (· != '\n') ++ text.dropWhile (· != '\n') :=
      List.takeWhile_append_dropWhile.symm
    have honeLine : ∀ c ∈ text.takeWhile (· != '\n'), (c != '\n') = true :=
      fun c hc => List.mem_takeWhile_imp (p := (· != '\n')) hc
    have hends : Stops (· != '\n') (text.dropWhile (· != '\n')) := stops_dropWhile _ text
    generalize text.takeWhile (· != '\n') = line at h htext honeLine
    generalize text.dropWhile (· != '\n') = after at h htext hends
    split at h
    · cases h
    · next paren left hleft =>
        obtain ⟨rfl, rfl⟩ := Prod.mk.inj (Option.some.inj h)
        obtain ⟨behind, rfl, hopen⟩ := exists_last_paren hleft
        have hdrop : (left.reverse ++ ')' :: behind).drop (left.length + 1) = behind := by
          simp [List.drop_append]
        simp only [List.forall_mem_append, List.forall_mem_cons] at honeLine
        refine ⟨?_, fun hmem => absurd (honeLine.1 _ hmem) (by decide), ?_⟩
        · rw [hdrop, htext, List.append_assoc, List.cons_append]
        · rw [hdrop, takeWhile_line honeLine.2.2 hends]
          exact hopen
  · rintro ⟨rfl, hline, hclosed⟩
    exact uptoLastParen?_eq (fun c hc heq => hline (heq ▸ hc)) hclosed

/-- What a search for the end of a text in parentheses finds in a line that leads to a shorthand,
    and in the line with the name of the element in front of it. -/
inductive Closing (find : List Char → Option (List Char × List Char)) (place : BareShorthand)
    (text : List Char) : Prop where
  /-- Nothing closes the text. -/
  | unclosed (bare : find (text ++ place.text) = none) (full : find (text ++ place.full) = none)
  /-- It is closed in front of the shorthand. -/
  | kept (inside left : List Char) (text_eq : text = inside ++ ')' :: left)
      (bare : find (text ++ place.text) = some (inside, left ++ place.text))
      (full : find (text ++ place.full) = some (inside, left ++ place.full))
  /-- It is closed behind the sign of the shorthand. -/
  | past (inside rest : List Char) (suffix : rest <:+ place.name ++ place.rest)
      (bare : find (text ++ place.text) = some (text ++ inside, rest))
      (full : find (text ++ place.full) = some (text ++ ("div".toList ++ inside), rest))

/-- A search does so when the closing parenthesis can be told, as `P`, by what stands in front of
    it and behind it. -/
theorem closing {find : List Char → Option (List Char × List Char)}
    {P : List Char → List Char → Prop} (place : BareShorthand) (text : List Char)
    (hfind : ∀ {text inside rest}, find text = some (inside, rest)
      ↔ text = inside ++ ')' :: rest ∧ P inside rest)
    (hkeep : ∀ inside left, P inside (left ++ place.text) ↔ P inside (left ++ place.full))
    (hpast : ∀ inside rest, P (text ++ inside) rest ↔ P (text ++ ("div".toList ++ inside)) rest) :
    Closing find place text := by
  -- what is closed behind the name of the element is closed without it, and the other way round
  have hclosed : ∀ behind rest, place.text = behind ++ ')' :: rest → P (text ++ behind) rest →
      rest <:+ place.name ++ place.rest
        ∧ find (text ++ place.text) = some (text ++ behind, rest)
        ∧ find (text ++ place.full) = some (text ++ ("div".toList ++ behind), rest) := by
    intro behind rest htext hP
    refine ⟨?_, hfind.mpr ⟨by rw [htext, List.append_assoc], hP⟩,
      hfind.mpr ⟨by rw [BareShorthand.full, htext]; simp, (hpast behind rest).mp hP⟩⟩
    cases behind with
    | nil =>
        have hsign := (List.cons.inj htext).1
        exact absurd hsign (place.forall_sign (P := (· ≠ ')')) (by decide) (by decide))
    | cons c behind =>
        rw [(List.cons.inj htext).2]
        exact ⟨behind ++ [')'], by simp⟩
  cases hbare : find (text ++ place.text) with
  | some found =>
      obtain ⟨inside, rest⟩ := found
      obtain ⟨htext, hP⟩ := hfind.mp hbare
      rcases List.append_eq_append_iff.mp htext with ⟨behind, rfl, hbehind⟩ | ⟨more, rfl, hmore⟩
      · obtain ⟨hrest, hsome, hfull⟩ := hclosed behind rest hbehind hP
        exact .past behind rest hrest hsome hfull
      · cases more with
        | nil =>
            obtain ⟨hrest, hsome, hfull⟩ := hclosed [] rest hmore.symm (by simpa using hP)
            exact .past [] rest hrest hsome hfull
        | cons c left =>
            obtain ⟨rfl, rfl⟩ := List.cons.inj hmore
            refine .kept inside left rfl hbare (hfind.mpr ⟨?_, (hkeep _ _).mp hP⟩)
            rw [List.append_assoc, List.cons_append]
  | none =>
      refine .unclosed hbare (Option.eq_none_iff_forall_ne_some.mpr ?_)
      rintro ⟨inside, rest⟩ hfull
      have hnone : ∀ {found}, find (text ++ place.text) ≠ some found := by simp [hbare]
      obtain ⟨htext, hP⟩ := hfind.mp hfull
      rcases List.append_eq_append_iff.mp htext with ⟨behind, rfl, hbehind⟩ | ⟨more, rfl, hmore⟩
      · obtain ⟨more, rfl, hmore⟩ := place.exists_text_of_full hbehind
        exact hnone (hclosed more rest hmore ((hpast more rest).mpr hP)).2.1
      · cases more with
        | nil =>
            have hd := (List.cons.inj hmore).1
            exact absurd hd (by decide)
        | cons c left =>
            obtain ⟨rfl, rfl⟩ := List.cons.inj hmore
            refine hnone (hfind.mpr ⟨?_, (hkeep _ _).mpr hP⟩)
            rw [List.append_assoc, List.cons_append]

end Form

/-! ## Pieces of forms -/

/-- A piece of a form that finds nothing whatever stands behind the text, or leaves a part that
    leads to what stands there. -/
def Passes (piece : List Char → Option (List Char)) (text : List Char) : Prop :=
  (∀ more, piece (text ++ more) = none)
    ∨ ∃ left, Leads left ∧ ∀ more, piece (text ++ more) = some (left ++ more)

/-- A piece of a form that does so, and finds the same in the text whatever stands behind it. -/
def Takes {β : Type} (piece : List Char → Option (β × List Char)) (text : List Char) : Prop :=
  (∀ more, piece (text ++ more) = none)
    ∨ ∃ body left, Leads left ∧ ∀ more, piece (text ++ more) = some (body, left ++ more)

theorem Passes.orElse {piece other : List Char → Option (List Char)} (h : Passes piece text)
    (hother : Passes other text) : Passes (fun text => piece text <|> other text) text := by
  rcases h with hnone | ⟨left, hleft, hsome⟩
  · refine hother.imp (fun hother more => ?_)
      fun ⟨left, hleft, hother⟩ => ⟨left, hleft, fun more => ?_⟩
    · simp only [hnone]
      exact hother more
    · simp only [hnone]
      exact hother more
  · exact .inr ⟨left, hleft, fun more => by simp only [hsome]; rfl⟩

theorem Takes.orElse {β : Type} {piece other : List Char → Option (β × List Char)}
    (h : Takes piece text) (hother : Takes other text) :
    Takes (fun text => piece text <|> other text) text := by
  rcases h with hnone | ⟨body, left, hleft, hsome⟩
  · refine hother.imp (fun hother more => ?_) fun ⟨body, left, hleft, hother⟩ =>
      ⟨body, left, hleft, fun more => ?_⟩
    · simp only [hnone]
      exact hother more
    · simp only [hnone]
      exact hother more
  · exact .inr ⟨body, left, hleft, fun more => by simp only [hsome]; rfl⟩

section Pieces

variable (h : Leads text)
include h

theorem afterWord?_leads (word : List Char) (hword : ':' ∉ word) :
    Passes (afterWord? word) text := by
  by_cases hfound : ∃ left, text = word ++ left
  · obtain ⟨left, rfl⟩ := hfound
    have hcolon := (List.mem_append.mp h.colon_mem).resolve_left hword
    refine .inr ⟨left, h.of_mem hcolon (by decide), fun more => ?_⟩
    exact afterWord?_eq_some_iff.mpr (List.append_assoc ..)
  · refine .inl fun more => ?_
    rw [Option.eq_none_iff_forall_ne_some]
    intro after hafter
    rcases List.append_eq_append_iff.mp (afterWord?_eq_some_iff.mp hafter) with
      ⟨left, rfl, -⟩ | ⟨left, rfl, -⟩
    · exact hword (List.mem_append_left left h.colon_mem)
    · exact hfound ⟨left, rfl⟩

theorem afterWholeWord?_leads (word : String) (hword : ':' ∉ word.toList) :
    Passes (afterWholeWord? word) text := by
  rcases afterWord?_leads h _ hword with hnone | ⟨left, hleft, hsome⟩
  · refine .inl fun more => ?_
    rw [afterWholeWord?, hnone]
    rfl
  · obtain ⟨c, left, rfl⟩ := List.exists_cons_of_ne_nil hleft.ne_nil
    cases hend : !Text.isWord c with
    | false =>
        refine .inl fun more => ?_
        rw [afterWholeWord?, hsome]
        exact Option.filter_some_neg (by simpa [atWordEnd] using hend)
    | true =>
        refine .inr ⟨_, hleft, fun more => ?_⟩
        rw [afterWholeWord?, hsome]
        exact Option.filter_some_pos (by simpa [atWordEnd] using hend)

theorem run?_leads (hp : p ':' = false) : Takes (run? p) text := by
  have hrun : ∀ more, run? p (text ++ more)
      = if (text.takeWhile p).isEmpty then none
        else some (text.takeWhile p, text.dropWhile p ++ more) := by
    intro more
    simp only [run?, takeWhile_append_of_mem h.colon_mem hp,
      dropWhile_append_of_mem h.colon_mem hp]
  cases hempty : (text.takeWhile p).isEmpty with
  | true => exact .inl fun more => by rw [hrun, hempty]; rfl
  | false => exact .inr ⟨_, _, h.dropWhile hp, fun more => by rw [hrun, hempty]; rfl⟩

/-- The number of spaces at the front. -/
theorem takeWhile_spaces (more : List Char) :
    (text ++ more).takeWhile (· == ' ') = text.takeWhile (· == ' ') :=
  takeWhile_append_of_mem h.colon_mem rfl more

theorem spacedRun?_leads (least : Nat) (hp : p ':' = false) :
    Takes (spacedRun? least p) text := by
  have hdrop := fun more => (h.dropSpaces more).1
  have hleads := (h.dropSpaces []).2
  by_cases hleast : (text.takeWhile (· == ' ')).length < least
  · refine .inl fun more => ?_
    simp only [spacedRun?, takeWhile_spaces h, if_pos hleast]
  · rcases run?_leads hleads hp with hnone | ⟨body, left, hleft, hsome⟩
    · by_cases hspare : (least < (text.takeWhile (· == ' ')).length && p ' ') = true
      · refine .inr ⟨[' '], _, hleads, fun more => ?_⟩
        simp only [spacedRun?, takeWhile_spaces h, if_neg hleast, hdrop, hnone, if_pos hspare]
      · refine .inl fun more => ?_
        simp only [spacedRun?, takeWhile_spaces h, if_neg hleast, hdrop, hnone, if_neg hspare]
    · refine .inr ⟨body, left, hleft, fun more => ?_⟩
      simp only [spacedRun?, takeWhile_spaces h, if_neg hleast, hdrop, hsome]

/-- A run of any characters of the line takes the place in. -/
theorem run?_past (place : BareShorthand) : ∃ body left, left <:+ place.name ++ place.rest
    ∧ run? inLine (text ++ place.text) = some (body, left) := by
  have hall : ∀ c ∈ text, inLine c = true := fun c hc =>
    bne_iff_ne.mpr fun heq => h.oneLine (heq ▸ hc)
  have hsign : inLine place.sign = true :=
    place.forall_sign (P := (inLine · = true)) (by decide) (by decide)
  obtain ⟨c, line, hline⟩ := List.exists_cons_of_ne_nil h.ne_nil
  have hc : inLine c = true := hall c (hline ▸ List.mem_cons_self ..)
  refine ⟨(text ++ place.text).takeWhile inLine, _, place.dropWhile_past hall hsign, ?_⟩
  rw [run?, hline, List.cons_append, List.takeWhile_cons_of_pos hc]
  rfl

/-- A run of which spaces and the colon are a part finds the same, or takes the place in. -/
theorem spacedRun?_cases (place : BareShorthand) (least : Nat) (hspace : p ' ' = true)
    (hcolon : p ':' = true) (hsign : p place.sign = true) :
    Takes (spacedRun? least p) text
      ∨ ∃ body left, left <:+ place.name ++ place.rest
        ∧ spacedRun? least p (text ++ place.text) = some (body, left) := by
  have hdrop := fun more => (h.dropSpaces more).1
  have hleads := (h.dropSpaces []).2
  by_cases hleast : (text.takeWhile (· == ' ')).length < least
  · refine .inl (.inl fun more => ?_)
    simp only [spacedRun?, takeWhile_spaces h, if_pos hleast]
  · rcases hleads.run_cases hspace hcolon with ⟨c, after, -, -, -, hafter, hrun⟩ | hall
    · cases hempty : ((Text.dropSpaces text).takeWhile p).isEmpty with
      | false =>
          refine .inl (.inr ⟨(Text.dropSpaces text).takeWhile p, c :: after, hafter,
            fun more => ?_⟩)
          simp only [spacedRun?, takeWhile_spaces h, if_neg hleast, hdrop, run?, hrun, hempty]
          rfl
      | true =>
          by_cases hspare : (least < (text.takeWhile (· == ' ')).length && p ' ') = true
          · refine .inl (.inr ⟨[' '], _, hleads, fun more => ?_⟩)
            simp only [spacedRun?, takeWhile_spaces h, if_neg hleast, hdrop, run?, hrun, hempty,
              if_pos hspare]
            rfl
          · refine .inl (.inl fun more => ?_)
            simp only [spacedRun?, takeWhile_spaces h, if_neg hleast, hdrop, run?, hrun, hempty,
              if_neg hspare]
            rfl
    · obtain ⟨c, line, hline⟩ := List.exists_cons_of_ne_nil hleads.ne_nil
      have hc : p c = true := hall c (hline ▸ List.mem_cons_self ..)
      refine .inr ⟨(Text.dropSpaces text ++ place.text).takeWhile p, _,
        place.dropWhile_past hall hsign, ?_⟩
      simp only [spacedRun?, takeWhile_spaces h, if_neg hleast, hdrop, run?]
      rw [hline, List.cons_append, List.takeWhile_cons_of_pos hc]
      rfl

theorem optionalColon_leads :
    ∃ colon left, (left = [] ∨ Leads left) ∧ ∀ more : List Char, more.head? ≠ some ' ' →
      optionalColon (text ++ more) = (colon, left ++ more) := by
  obtain ⟨c, line, rfl⟩ := List.exists_cons_of_ne_nil h.ne_nil
  by_cases hc : c = ':'
  · subst hc
    have hline : Leads ([':'] ++ line) := h
    obtain ⟨left, hleft, hdrop⟩ := exists_dropSpaces hline.suffix
    exact ⟨true, left, hleft, fun more hmore => congrArg (Prod.mk true) (hdrop more hmore)⟩
  · refine ⟨false, c :: line, .inr h, fun more _ => ?_⟩
    exact optionalColon.eq_2 _ fun after heq => hc (List.cons.inj heq).1

theorem dropDash_leads : ∃ left, Leads left ∧ ∀ more, dropDash (text ++ more) = left ++ more := by
  obtain ⟨c, line, rfl⟩ := List.exists_cons_of_ne_nil h.ne_nil
  by_cases hc : c = '-'
  · subst hc
    have hline : Leads line := h.tail (by decide) (by decide)
    exact ⟨_, (hline.dropSpaces []).2, fun more => (hline.dropSpaces more).1⟩
  · exact ⟨c :: line, h, fun more => dropDash.eq_2 _ fun after heq => hc (List.cons.inj heq).1⟩

theorem dropSemicolon_leads :
    ∃ left, Leads left ∧ ∀ more, dropSemicolon (text ++ more) = left ++ more := by
  obtain ⟨c, line, rfl⟩ := List.exists_cons_of_ne_nil h.ne_nil
  by_cases hc : c = ';'
  · subst hc
    have hline : Leads line := h.tail (by decide) (by decide)
    exact ⟨_, (hline.dropSpaces []).2, fun more => (hline.dropSpaces more).1⟩
  · exact ⟨c :: line, h, fun more => dropSemicolon.eq_2 _ fun after heq => hc (List.cons.inj heq).1⟩

theorem loopKey_leads :
    ∃ key left, Leads left ∧ ∀ more, loopKey (text ++ more) = (key, left ++ more) := by
  have hkey : Takes loopKey? text := by
    have hspaces := fun more => (h.dropSpaces more).1
    rcases afterWord?_leads (h.dropSpaces []).2 [','] (by decide) with
      hnone | ⟨after, hafter, hsome⟩
    · refine .inl fun more => ?_
      rw [loopKey?, hspaces, hnone]
      rfl
    · have hdrop := fun more => (hafter.dropSpaces more).1
      rcases run?_leads (p := Text.isWord) (hafter.dropSpaces []).2 (by decide) with
        hrun | ⟨body, left, hleft, hrun⟩
      · refine .inl fun more => ?_
        rw [loopKey?, hspaces, hsome]
        simp only [Option.bind_eq_bind, Option.bind_some, hdrop, hrun]
      · refine .inr ⟨body, left, hleft, fun more => ?_⟩
        rw [loopKey?, hspaces, hsome]
        simp only [Option.bind_eq_bind, Option.bind_some, hdrop, hrun]
  rcases hkey with hnone | ⟨body, left, hleft, hsome⟩
  · exact ⟨defaultKey, text, h, fun more => by rw [loopKey, hnone]⟩
  · exact ⟨String.ofList body, left, hleft, fun more => by rw [loopKey, hsome]⟩

theorem modeWord?_leads : Takes modeWord? text := by
  have hspaced : ∀ mode : BlockMode, Takes (fun text => do
      let after ← afterWord? mode.name.toList text
      if after.head? == some ' ' then some (mode, Text.dropSpaces after) else none) text := by
    intro mode
    rcases afterWord?_leads h mode.name.toList (by cases mode <;> decide) with
      hnone | ⟨after, hafter, hsome⟩
    · exact .inl fun more => by simp only [hnone]; rfl
    · by_cases hhead : (after.head? == some ' ') = true
      · refine .inr ⟨mode, _, (hafter.dropSpaces []).2, fun more => ?_⟩
        simp only [hsome, Option.bind_eq_bind, Option.bind_some, hafter.head?_append, if_pos hhead,
          (hafter.dropSpaces more).1]
      · refine .inl fun more => ?_
        simp only [hsome, Option.bind_eq_bind, Option.bind_some, hafter.head?_append, if_neg hhead]
  exact (hspaced .prepend).orElse (hspaced .append)

/-- Whether a text starts like an attribute is settled in front of the colon. -/
theorem attributeLike_leads :
    ∃ like, ∀ more, attributeLike (text ++ more) = like := by
  have hspaces := fun more => (h.dropSpaces more).1
  rcases run?_leads (p := Text.isNamePart) (h.dropSpaces []).2 (by decide) with
    hrun | ⟨body, left, hleft, hrun⟩
  · exact ⟨false, fun more => by rw [attributeLike, hspaces, hrun]⟩
  · refine ⟨(Text.dropSpaces left).head? == some '=', fun more => ?_⟩
    rw [attributeLike, hspaces, hrun]
    dsimp only
    rw [(hleft.dropSpaces more).1, (hleft.dropSpaces []).2.head?_append]

end Pieces

end Stencil
