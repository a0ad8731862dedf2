import Stencil.Proofs.Lexer.Shortening
import Stencil.Proofs.Text.Lines

/-! # Elements — names that are read as elements

    The form of an element comes late, and its name may start with any keyword.
    What keeps the keyword's form from matching is what follows: a keyword wants
    a space, or the end of the word, behind it.  A text on which no keyword finds
    what it wants is left to the forms without one (`Unclaimed.first?`).

    A name has no space in it.  So only the keywords that stand by themselves take
    a name away (`ElementName.free`), and every other name is read as an element,
    whatever ends it (`ElementName.first?`). -/

namespace Stencil

open Form

variable {name word after rest : List Char} {p : Char → Bool}

/-- The front of a text is not part of a name before it, and says nothing about the element but
    what is in it. -/
def EndsName (rest : List Char) : Prop :=
  ∀ c ∈ rest.head?, inTagName c = false ∧ c ≠ ' ' ∧ c ≠ '/'

theorem EndsLine.endsName (h : EndsLine rest) : EndsName rest := by
  intro c hc
  obtain rfl := h c hc
  decide

theorem endsName_parenthesis (rest : List Char) : EndsName ('(' :: rest) := by
  rintro c ⟨rfl⟩
  decide

theorem inTagName_of_isWord {c : Char} (h : Text.isWord c = true) : inTagName c = true := by
  simp [inTagName, Text.isNamePart, h]

theorem EndsName.stops_word (h : EndsName rest) : Stops Text.isWord rest := by
  intro c hc
  rw [← Bool.not_eq_true]
  intro hword
  have hout := (h c hc).1
  rw [inTagName_of_isWord hword] at hout
  exact nomatch hout

/-! ## Keywords at the front of a name -/

theorem afterWord?_eq_some_iff {text : List Char} :
    afterWord? word text = some after ↔ text = word ++ after := by
  induction word generalizing text with
  | nil => simp [afterWord?]
  | cons w word ih =>
      cases text with
      | nil => simp [afterWord?]
      | cons c text =>
          by_cases hc : w = c
          · subst hc
            simp [afterWord?, ih]
          · have : ¬ c = w := fun h => hc h.symm
            simp [afterWord?, hc, this]

/-- A keyword at the front of a name leaves the rest of the name. -/
theorem afterWord?_stops (hword : ∀ c ∈ word, Text.isWord c = true)
    (hrest : Stops Text.isWord rest) (h : afterWord? word (name ++ rest) = some after) :
    ∃ more, name = word ++ more ∧ after = more ++ rest := by
  rcases List.append_eq_append_iff.mp (afterWord?_eq_some_iff.mp h) with
    ⟨more, hmore, hafter⟩ | ⟨more, hname, hafter⟩
  · cases more with
    | nil => exact ⟨[], by simpa using hmore.symm, by simpa using hafter.symm⟩
    | cons c more =>
        have hc := hrest c (by rw [hafter]; rfl)
        rw [hword c (by rw [hmore]; simp)] at hc
        exact nomatch hc
  · exact ⟨more, hname, hafter⟩

theorem afterWord?_name (hword : ∀ c ∈ word, Text.isWord c = true) (hrest : EndsName rest)
    (h : afterWord? word (name ++ rest) = some after) :
    ∃ more, name = word ++ more ∧ after = more ++ rest :=
  afterWord?_stops hword hrest.stops_word h

theorem head_not_space (hname : ∀ c ∈ name, inTagName c = true) (hrest : EndsName rest) :
    (name ++ rest).head? ≠ some ' ' := by
  intro hhead
  cases name with
  | nil => exact (hrest ' ' hhead).2.1 rfl
  | cons c name =>
      obtain rfl : c = ' ' := Option.some.inj hhead
      exact absurd (hname ' ' List.mem_cons_self) (by decide)

theorem spacedRun?_name {least : Nat} (hleast : 0 < least)
    (hname : ∀ c ∈ name, inTagName c = true) (hrest : EndsName rest) :
    spacedRun? least p (name ++ rest) = none := by
  have hspaces : (name ++ rest).takeWhile (· == ' ') = [] := by
    cases htext : name ++ rest with
    | nil => rfl
    | cons c text =>
        have hc : c ≠ ' ' := fun h => head_not_space hname hrest (by rw [htext, h]; rfl)
        rw [List.takeWhile_cons_of_neg (by simpa using hc)]
  unfold spacedRun?
  simp only [hspaces, List.length_nil, if_pos hleast]

theorem keywordLine_name {keyword : String} {lexeme : String → Lexeme}
    (hkeyword : ∀ c ∈ keyword.toList, Text.isWord c = true)
    (hname : ∀ c ∈ name, inTagName c = true) (hrest : EndsName rest) :
    keywordLine keyword lexeme (name ++ rest) = none := by
  rw [keywordLine]
  cases h : afterWord? keyword.toList (name ++ rest) with
  | none => rfl
  | some after =>
      obtain ⟨more, rfl, rfl⟩ := afterWord?_name hkeyword hrest h
      have hmore : ∀ c ∈ more, inTagName c = true := fun c hc =>
        hname c (List.mem_append_right _ hc)
      show (spacedLine? (more ++ rest) >>= _) = none
      rw [spacedLine?, spacedRun?_name Nat.zero_lt_one hmore hrest]
      rfl

/-- Two words with a space between them are in no name. -/
theorem afterWord?_spaced {more : List Char} (hword : ∀ c ∈ word, Text.isWord c = true)
    (hname : ∀ c ∈ name, inTagName c = true) (hrest : EndsName rest) :
    afterWord? (word ++ ' ' :: more) (name ++ rest) = none := by
  cases h : afterWord? (word ++ ' ' :: more) (name ++ rest) with
  | none => rfl
  | some after =>
      have htext := afterWord?_eq_some_iff.mp h
      rw [List.append_assoc] at htext
      obtain ⟨left, rfl, hleft⟩ := afterWord?_name hword hrest (afterWord?_eq_some_iff.mpr htext)
      have hleftname : ∀ c ∈ left, inTagName c = true := fun c hc =>
        hname c (List.mem_append_right _ hc)
      exact absurd (by rw [← hleft]; rfl) (head_not_space hleftname hrest)

/-! ## Texts that no keyword claims -/

/-- The keywords that need nothing behind them but the end of the word. -/
def wholeWords : List String := ["yield", "doctype", "default", "block", "if", "unless", "else"]

/-- The keywords that need a space and some text behind them. -/
def lineWords : List String :=
  ["case", "extends", "extend", "append", "prepend", "include", "while"]

/-- A text that starts with a word, but with no keyword that makes a statement of it. -/
structure Unclaimed (text : List Char) : Prop where
  starts : text.head?.any Text.isWord = true
  whole : ∀ keyword ∈ wholeWords, afterWholeWord? keyword text = none
  line : ∀ keyword ∈ lineWords, ∀ lexeme, keywordLine keyword lexeme text = none
  elseIf : afterWholeWord? "else if" text = none
  whenArm : whenArm text = none
  mixinHead : mixinHead text = none
  eachHead : eachHead text = none

namespace Unclaimed

variable {text : List Char}

theorem afterWord?_sign (h : Unclaimed text) {sign : Char} (hsign : Text.isWord sign = false)
    (signs : List Char) : afterWord? (sign :: signs) text = none := by
  have hstarts := h.starts
  cases text with
  | nil => rfl
  | cons c text =>
      have hne : sign ≠ c := by
        rintro rfl
        exact absurd (hsign.symm.trans hstarts) nofun
      simp [afterWord?, hne]

theorem conditionOf (h : Unclaimed text) {keyword : String} (hkeyword : keyword ∈ wholeWords)
    (code : String → String) : Form.conditionOf keyword code text = none := by
  rw [Form.conditionOf, h.whole keyword hkeyword]
  rfl

theorem conditional (h : Unclaimed text) : Form.conditional text = none := by
  have helseIf : Form.conditionOf "else if" (fun test => "else if (" ++ test ++ ")") text
      = none := by
    rw [Form.conditionOf, h.elseIf]
    rfl
  rw [Form.conditional, helseIf, h.conditionOf (by decide), h.conditionOf (by decide),
    h.conditionOf (by decide)]
  rfl

/-- **An unclaimed text** is left to the forms behind those with a keyword. -/
theorem first? (h : Unclaimed text) :
    Form.first? text
      = [assignment, tagName, filterName, codeLine, idName, className, comment,
          textLine].findSome? fun form => form text := by
  have hyield : yieldMark text = none := by
    rw [yieldMark, h.whole _ (by decide)]
    rfl
  have hdoctype : doctype text = none := by
    have hmark : afterWord? "!!!".toList text = none := h.afterWord?_sign (by decide) _
    rw [doctype, hmark, h.whole _ (by decide)]
    rfl
  have hinterpolated : interpolatedTag text = none := by
    have hmark : afterWord? "#\x7b".toList text = none := h.afterWord?_sign (by decide) _
    rw [interpolatedTag, hmark]
    rfl
  have hdefault : defaultArm text = none := by
    rw [defaultArm, h.whole _ (by decide)]
    rfl
  have hextends : extendsPath text = none := by
    rw [extendsPath, h.line _ (by decide), h.line _ (by decide)]
    rfl
  have hblock : namedBlock text = none := by
    rw [namedBlock, h.whole _ (by decide)]
    rfl
  have hcall : mixinCall text = none := by
    rw [mixinCall, h.afterWord?_sign (by decide)]
    rfl
  have hcase : caseHead text = none := h.line _ (by decide) _
  have happend : appendBlock text = none := h.line _ (by decide) _
  have hprepend : prependBlock text = none := h.line _ (by decide) _
  have hinclude : includePath text = none := h.line _ (by decide) _
  have hwhile : whileHead text = none := h.line _ (by decide) _
  rw [Form.first?, ordered]
  simp only [List.findSome?_cons, hyield, hdoctype, hinterpolated, hcase, h.whenArm, hdefault,
    hextends, happend, hprepend, hblock, hinclude, h.mixinHead, hcall, h.conditional, h.eachHead,
    hwhile]

end Unclaimed

/-! ## Names -/

/-- The name of an element as it is written. -/
structure ElementName where
  text : String
  starts : text.toList.head?.any Text.isWord = true
  inside : ∀ c ∈ text.toList, inTagName c = true
  /-- A colon at the end is not part of the name. -/
  uncolonned : text.toList.getLast? ≠ some ':'
  free : ∀ word ∈ wholeWords, afterWholeWord? word text.toList = none

namespace ElementName

variable (name : ElementName)

theorem exists_cons : ∃ c text, name.text.toList = c :: text ∧ Text.isWord c = true := by
  have hstarts := name.starts
  cases htext : name.text.toList with
  | nil =>
      rw [htext] at hstarts
      exact nomatch hstarts
  | cons c text =>
      rw [htext] at hstarts
      exact ⟨c, text, rfl, hstarts⟩

theorem starts_append (rest : List Char) :
    (name.text.toList ++ rest).head?.any Text.isWord = true := by
  obtain ⟨c, text, htext, hc⟩ := name.exists_cons
  rw [htext]
  exact hc

/-- A keyword that is a whole word is at the front of no name. -/
theorem afterWholeWord?_eq_none (hrest : EndsName rest) {keyword : String}
    (hkeyword : keyword ∈ wholeWords) :
    afterWholeWord? keyword (name.text.toList ++ rest) = none := by
  have hwords : ∀ keyword ∈ wholeWords, keyword.toList.all Text.isWord = true := by decide
  have hword : ∀ c ∈ keyword.toList, Text.isWord c = true :=
    List.all_eq_true.mp (hwords keyword hkeyword)
  rw [afterWholeWord?, Option.filter_eq_none_iff]
  intro after h
  obtain ⟨more, hname, rfl⟩ := afterWord?_name hword hrest h
  have hfree := name.free keyword hkeyword
  rw [afterWholeWord?, Option.filter_eq_none_iff] at hfree
  have hmore := hfree more (afterWord?_eq_some_iff.mpr hname)
  cases more with
  | nil => exact absurd rfl hmore
  | cons c more => exact hmore

variable (hrest : EndsName rest)

include hrest

/-- A keyword that wants a space behind it is followed by none. -/
theorem spacedRun?_eq_none {keyword : String} {least : Nat} (hleast : 0 < least)
    (hkeyword : ∀ c ∈ keyword.toList, Text.isWord c = true)
    (h : afterWord? keyword.toList (name.text.toList ++ rest) = some after) :
    spacedRun? least p after = none := by
  obtain ⟨more, hname, rfl⟩ := afterWord?_name hkeyword hrest h
  exact spacedRun?_name hleast
    (fun c hc => name.inside c (hname ▸ List.mem_append_right _ hc)) hrest

theorem whenArm : Form.whenArm (name.text.toList ++ rest) = none := by
  rw [Form.whenArm]
  cases h : afterWord? "when".toList (name.text.toList ++ rest) with
  | none => rfl
  | some after =>
      show (spacedRun? 1 inWhen after >>= _) = none
      rw [name.spacedRun?_eq_none hrest Nat.zero_lt_one (List.all_eq_true.mp (by decide)) h]
      rfl

theorem mixinHead : Form.mixinHead (name.text.toList ++ rest) = none := by
  rw [Form.mixinHead]
  cases h : afterWord? "mixin".toList (name.text.toList ++ rest) with
  | none => rfl
  | some after =>
      show (spacedRun? 1 Text.isNamePart after >>= _) = none
      rw [name.spacedRun?_eq_none hrest Nat.zero_lt_one (List.all_eq_true.mp (by decide)) h]
      rfl

theorem eachHead : Form.eachHead (name.text.toList ++ rest) = none := by
  have hdash : dropDash (name.text.toList ++ rest) = name.text.toList ++ rest := by
    obtain ⟨c, text, htext, hc⟩ := name.exists_cons
    rw [htext, List.cons_append, dropDash]
    intro after he
    obtain rfl : c = '-' := (List.cons.inj he).1
    exact absurd hc (by decide)
  have hkeyword : ∀ {word : List Char} {after : List Char},
      (∀ c ∈ word, Text.isWord c = true) →
      afterWord? word (name.text.toList ++ rest) = some after →
      (after.head? != some ' ') = true := by
    intro word after hword h
    obtain ⟨more, hmore, rfl⟩ := afterWord?_name hword hrest h
    refine bne_iff_ne.mpr (head_not_space (fun c hc => name.inside c ?_) hrest)
    exact hmore ▸ List.mem_append_right _ hc
  simp only [Form.eachHead, hdash]
  cases h : afterWord? "each".toList (name.text.toList ++ rest)
      <|> afterWord? "for".toList (name.text.toList ++ rest) with
  | none => rfl
  | some after =>
      have hspace : (after.head? != some ' ') = true := by
        rcases cases_orElse h with hword | hword
        · exact hkeyword (List.all_eq_true.mp (by decide)) hword
        · exact hkeyword (List.all_eq_true.mp (by decide)) hword
      show (if after.head? != some ' ' then _ else _) = none
      rw [if_pos hspace]
      rfl

theorem assignment : Form.assignment (name.text.toList ++ rest) = none := by
  have hdrop : (name.text.toList ++ rest).dropWhile Text.isWord
      = name.text.toList.dropWhile Text.isWord ++ rest := by
    rw [List.dropWhile_append]
    split
    · next hnil => rw [List.isEmpty_iff.mp hnil, dropWhile_stops hrest.stops_word, List.nil_append]
    · rfl
  have hspace : (((name.text.toList ++ rest).dropWhile Text.isWord).head? != some ' ') = true := by
    rw [hdrop]
    exact bne_iff_ne.mpr (head_not_space
      (fun c hc => name.inside c ((List.dropWhile_sublist _).mem hc)) hrest)
  rw [Form.assignment, run?]
  dsimp only
  split
  · rfl
  · show (if ((name.text.toList ++ rest).dropWhile Text.isWord).head? != some ' ' then _ else _)
      = none
    rw [if_pos hspace]
    rfl

theorem tagName :
    Form.tagName (name.text.toList ++ rest) = some { lexeme := .tag name.text false, rest } := by
  have hstops : Stops inTagName rest := fun c hc => (hrest c hc).1
  have hlast : (name.text.toList.getLast? == some ':') = false :=
    beq_eq_false_iff_ne.mpr name.uncolonned
  have hclosed : (rest.head? == some '/') = false :=
    beq_eq_false_iff_ne.mpr fun h => (hrest '/' h).2.2 rfl
  rw [Form.tagName, if_pos (name.starts_append rest)]
  simp only [takeWhile_line name.inside hstops, dropWhile_line name.inside hstops, hlast, hclosed,
    String.ofList_toList]
  rfl

theorem unclaimed : Unclaimed (name.text.toList ++ rest) where
  starts := name.starts_append rest
  whole _ hkeyword := name.afterWholeWord?_eq_none hrest hkeyword
  line keyword hkeyword _ := by
    have hwords : ∀ keyword ∈ lineWords, keyword.toList.all Text.isWord = true := by decide
    exact keywordLine_name (List.all_eq_true.mp (hwords keyword hkeyword)) name.inside hrest
  elseIf := by
    have hspaced : afterWord? ("else".toList ++ ' ' :: "if".toList) (name.text.toList ++ rest)
        = none := afterWord?_spaced (List.all_eq_true.mp (by decide)) name.inside hrest
    exact congrArg (Option.filter atWordEnd) hspaced
  whenArm := name.whenArm hrest
  mixinHead := name.mixinHead hrest
  eachHead := name.eachHead hrest

/-- **A name is read as an element**, whatever ends it. -/
theorem first? :
    Form.first? (name.text.toList ++ rest)
      = some { lexeme := .tag name.text false, rest } := by
  rw [(name.unclaimed hrest).first?]
  simp only [List.findSome?_cons, name.assignment hrest, name.tagName hrest]

end ElementName

end Stencil
