import Stencil.Proofs.Attribute.RoundTrip

/-! # String literals — values that are recorded as they stand

    A literal is what the interpolation finds between two quotes: a backslash
    takes the character behind it along (`LiteralBody`).  A text in which every
    quote stands at a literal without an interpolation is not changed by the
    interpolation (`Quoted.interpolate`), and what trimming leaves of it is such
    a text again (`Quoted.trim`).

    A scanner that collects such a text behind an equals sign therefore records
    it, and is then ready for the next attribute (`entries_listAround`). -/

namespace Stencil.Attribute

/-! ## Literals -/

/-- What can stand between two quotes of a kind. -/
inductive LiteralBody (quote : Char) : List Char → Prop where
  | nil : LiteralBody quote []
  | escaped {c : Char} {rest : List Char} (sameLine : c ≠ '\n')
      (after : LiteralBody quote rest) : LiteralBody quote ('\\' :: c :: rest)
  | char {c : Char} {rest : List Char} (unquoted : c ≠ quote) (plain : c ≠ '\\')
      (after : LiteralBody quote rest) : LiteralBody quote (c :: rest)

/-- A string literal without an interpolation. -/
structure Literal where
  quote : Char
  body : List Char
  isQuote : Text.isQuote quote = true
  wellFormed : LiteralBody quote body
  uninterpolated : ¬ interpolationMark <:+: body

variable {quote : Char} {text more body rest : List Char}

namespace Literal

/-- A literal as it is written. -/
def write (literal : Literal) : List Char := literal.quote :: (literal.body ++ [literal.quote])

/-- Whether the body of a literal holds the quote that the literal stands in. -/
def HoldsQuote (literal : Literal) : Prop := literal.quote ∈ literal.body

instance (literal : Literal) : Decidable literal.HoldsQuote :=
  inferInstanceAs (Decidable (_ ∈ _))

end Literal

theorem ne_backslash_of_isQuote (h : Text.isQuote quote = true) : quote ≠ '\\' := by
  rintro rfl
  exact absurd h (by decide)

/-- Its own quote can stand in a literal only behind a backslash. -/
theorem LiteralBody.unquoted (h : LiteralBody quote body) (hflat : '\\' ∉ body) :
    quote ∉ body := by
  induction h with
  | nil => exact List.not_mem_nil
  | escaped => exact absurd List.mem_cons_self hflat
  | char unquoted plain after ih =>
      rw [List.mem_cons, not_or]
      exact ⟨unquoted.symm, ih fun hmem => hflat (List.mem_cons_of_mem _ hmem)⟩

/-- **A literal is found** behind its opening quote, whatever stands behind it. -/
theorem LiteralBody.literalRest_eq (h : LiteralBody quote body) (rest : List Char)
    (hquote : Text.isQuote quote = true) :
    literalRest quote (body ++ quote :: rest) = some (body ++ [quote], rest) := by
  have hne := ne_backslash_of_isQuote hquote
  induction h with
  | nil =>
      show literalRest quote (quote :: rest) = _
      rw [literalRest.eq_3 quote quote rest fun _ _ hc _ => hne hc, if_pos (beq_self_eq_true quote)]
      rfl
  | escaped sameLine after ih => simp [literalRest, sameLine, ih]
  | @char c body unquoted plain after ih =>
      rw [List.cons_append, literalRest.eq_3 quote c _ fun _ _ hc _ => plain hc,
        if_neg (by simpa using unquoted), if_neg (by simpa using plain), ih]
      rfl

/-- **What is found behind a quote is the body of a literal** and the quote that closes it. -/
theorem literalRest_eq_some_iff {found after : List Char} (hquote : Text.isQuote quote = true) :
    literalRest quote text = some (found, after)
      ↔ ∃ body, LiteralBody quote body ∧ found = body ++ [quote]
        ∧ text = body ++ quote :: after := by
  constructor
  · intro h
    fun_induction literalRest quote text generalizing found with
    | case1 => cases h
    | case2 => cases h
    | case3 c rest hc ih =>
        obtain ⟨⟨found, after⟩, hrest, hpair⟩ := Option.map_eq_some_iff.mp h
        obtain ⟨rfl, rfl⟩ := Prod.mk.inj hpair
        obtain ⟨body, hbody, rfl, rfl⟩ := ih hrest
        exact ⟨'\\' :: c :: body, .escaped (by simpa using hc) hbody, rfl, rfl⟩
    | case4 c rest _ hc =>
        obtain ⟨rfl, rfl⟩ := Prod.mk.inj (Option.some.inj h)
        obtain rfl : c = quote := beq_iff_eq.mp hc
        exact ⟨[], .nil, rfl, rfl⟩
    | case5 => cases h
    | case6 c rest _ hunquoted hplain ih =>
        obtain ⟨⟨found, after⟩, hrest, hpair⟩ := Option.map_eq_some_iff.mp h
        obtain ⟨rfl, rfl⟩ := Prod.mk.inj hpair
        obtain ⟨body, hbody, rfl, rfl⟩ := ih hrest
        exact ⟨c :: body, .char (by simpa using hunquoted) (by simpa using hplain) hbody, rfl, rfl⟩
  · rintro ⟨body, hbody, rfl, rfl⟩
    exact hbody.literalRest_eq _ hquote

/-- A body is one that the interpolation finds, when a quote closes it. -/
theorem literalBody_iff (hquote : Text.isQuote quote = true) :
    LiteralBody quote body
      ↔ literalRest quote (body ++ [quote]) = some (body ++ [quote], []) := by
  rw [literalRest_eq_some_iff hquote]
  constructor
  · exact fun h => ⟨body, h, rfl, rfl⟩
  · rintro ⟨found, h, hfound, -⟩
    rwa [List.append_cancel_right hfound]

/-! ## Texts without interpolations -/

/-- Texts in which quotes stand only at literals without interpolations. -/
inductive Quoted : List Char → Prop where
  | nil : Quoted []
  | char {c : Char} {rest : List Char} (unquoted : Text.isQuote c = false)
      (after : Quoted rest) : Quoted (c :: rest)
  | literal (literal : Literal) {rest : List Char} (after : Quoted rest) :
      Quoted (literal.write ++ rest)

theorem Quoted.append (h : Quoted text) (hmore : Quoted more) : Quoted (text ++ more) := by
  induction h with
  | nil => exact hmore
  | char unquoted after ih => exact .char unquoted ih
  | literal literal after ih =>
      rw [List.append_assoc]
      exact .literal literal ih

/-- The quotes around a body open no interpolation. -/
theorem Literal.not_infix_write (literal : Literal) : ¬ interpolationMark <:+: literal.write := by
  obtain ⟨quote, body, hquote, -, hmark⟩ := literal
  have hbrace : quote ≠ '\x7b' := by
    rintro rfl
    exact absurd hquote (by decide)
  have hhash : quote ≠ '#' := by
    rintro rfl
    exact absurd hquote (by decide)
  rw [Literal.write, List.infix_cons_iff, List.infix_concat_iff, not_or, not_or]
  refine ⟨fun hfront => hhash ?_, fun hback => hbrace ?_, hmark⟩
  · exact (List.cons_prefix_cons.mp hfront).1.symm
  · obtain ⟨front, heq⟩ := hback
    rw [interpolationMark, List.append_cons front '#' ['\x7b']] at heq
    simpa using (List.append_inj' heq rfl).2.symm

theorem Quoted.interpolateWith (h : Quoted text) (fuel : Nat) :
    interpolateWith fuel text = text := by
  induction h generalizing fuel with
  | nil => cases fuel <;> rfl
  | char unquoted after ih =>
      cases fuel with
      | zero => rfl
      | succ fuel => simp [Attribute.interpolateWith, unquoted, ih]
  | @literal literal rest after ih =>
      cases fuel with
      | zero => rfl
      | succ fuel =>
          have hrest := literal.wellFormed.literalRest_eq rest literal.isQuote
          have hsplice : splice literal.quote literal.write = literal.write :=
            spliceWith_of_not_infix _ _ literal.not_infix_write
          rw [Literal.write] at hsplice
          simp [Literal.write, Attribute.interpolateWith, literal.isQuote, hrest, hsplice, ih]

/-- **Without an interpolation in its literals, a value stays as it is.** -/
theorem Quoted.interpolate (h : Quoted text) : interpolate text = text := h.interpolateWith _

/-! ## Trimming -/

theorem isBlank_of_isQuote (h : Text.isQuote quote = true) : Text.isBlank quote = false := by
  rw [Text.isQuote, Bool.or_eq_true, beq_iff_eq, beq_iff_eq] at h
  rcases h with rfl | rfl <;> decide

theorem isQuote_of_isBlank {c : Char} (h : Text.isBlank c = true) : Text.isQuote c = false := by
  rw [← Bool.not_eq_true]
  intro hquote
  rw [isBlank_of_isQuote hquote] at h
  exact nomatch h

/-- A literal does not end in a character other than its quote. -/
theorem Quoted.of_concat {c : Char} (hc : Text.isQuote c = false) (h : Quoted (text ++ [c])) :
    Quoted text := by
  generalize hall : text ++ [c] = all at h
  induction h generalizing text with
  | nil => exact absurd hall (by simp)
  | @char c' rest unquoted after ih =>
      rcases text with - | ⟨first, text⟩
      · exact .nil
      · obtain ⟨rfl, hrest⟩ := List.cons.inj hall
        exact .char unquoted (ih hrest)
  | @literal literal rest after ih =>
      rcases List.eq_nil_or_concat' rest with rfl | ⟨rest, c', rfl⟩
      · have hlast : c = literal.quote := by
          rw [List.append_nil, Literal.write, ← List.cons_append] at hall
          simpa using (List.append_inj' hall rfl).2
        rw [hlast, literal.isQuote] at hc
        exact nomatch hc
      · rw [← List.append_assoc] at hall
        obtain ⟨rfl, hlast⟩ := List.append_inj' hall rfl
        exact .literal literal (ih (by rw [hlast]))

theorem Quoted.trim (h : Quoted text) : Quoted (Text.trim text) := by
  have hfront : Quoted (text.dropWhile Text.isBlank) := by
    induction h with
    | nil => exact .nil
    | @char c rest unquoted after ih =>
        rw [List.dropWhile_cons]
        split
        · exact ih
        · exact .char unquoted after
    | literal literal after ih =>
        rw [Literal.write, List.cons_append, List.dropWhile_cons,
          if_neg (by simp [isBlank_of_isQuote literal.isQuote])]
        exact .literal literal after
  show Quoted ((text.dropWhile Text.isBlank).rdropWhile Text.isBlank)
  generalize text.dropWhile Text.isBlank = kept at hfront
  induction kept using List.reverseRecOn with
  | nil => exact .nil
  | append_singleton front c ih =>
      rw [List.rdropWhile_concat]
      split
      · next hblank => exact ih (hfront.of_concat (isQuote_of_isBlank hblank))
      · exact hfront

/-! ## A value in a list -/

/-- A list of an attribute with the given text as its value, and of a flag behind it. -/
def listAround (value : List Char) : List Char := "k=".toList ++ value ++ ", z".toList

/-- The attributes that such a list is meant to have. -/
def entriesAround (value : List Char) : List (String × Attribute) :=
  [("k", { value := .text (String.ofList (Text.trim value)) }), ("z", { value := .flag })]

namespace Scanner

variable {colons : Bool} {scanner : Scanner} {value : List Char} {c : Char}

/-- A scanner that has read the name and the equals sign. -/
def valueOpened (colons : Bool) : Scanner where
  colons
  states := [.value, .name]
  name := ['k']
  last := some '='

theorem feed_name_equals (colons : Bool) :
    ({ colons } : Scanner).feed "k=".toList = valueOpened colons := by
  cases colons <;> rfl

/-- A separator outside of everything ends the attribute. -/
theorem step_separator (h : scanner.state.isNested = false) (hc : isSeparator c = true) :
    scanner.step c = { scanner.flush with last := some c } := by
  rw [isSeparator, Bool.or_eq_true, beq_iff_eq, beq_iff_eq] at hc
  rcases hc with rfl | rfl <;> simp [step, meaning, readSeparator, h]

/-- A scanner has taken a text in for the value, and may be inside of something else. -/
structure Gathers (before : Scanner) (text : List Char) (after : Scanner) : Prop where
  colons : after.colons = before.colons
  name : after.name = before.name
  value : after.value = before.value ++ text
  unescaped : after.unescaped = before.unescaped
  attributes : after.attributes = before.attributes

theorem Collects.gathers {before : Scanner} (h : before.Collects value scanner) :
    before.Gathers value scanner where
  __ := h

/-- What is recorded at the end of the value that has been opened. -/
theorem Gathers.flush_valueOpened (h : (valueOpened colons).Gathers value scanner) :
    scanner.flush
      = { colons, last := scanner.last,
          attributes := .ofList [("k", attributeOf ['k'] (Text.trim value) false)] } := by
  simp only [flush, h.colons, h.name, h.value, h.unescaped, h.attributes]
  rfl

/-- The flag behind the value is recorded. -/
theorem flush_flag {last : Option Char} {first : Attribute} :
    (({ colons, last, attributes := .ofList [("k", first)] } : Scanner).feed
        " z".toList).flush.attributes.entries = [("k", first), ("z", { value := .flag })] := by
  have hparts : ∀ c ∈ " z".toList, IsNamePart c := by
    simp [IsNamePart, isSeparator, Text.isQuote, isBracket]
  have htrim : Text.trim [' ', 'z'] = ['z'] := by decide
  have hblank : Text.trim [] = [] := rfl
  have hname : recordedName ['z'] = ['z'] := by decide
  have hkey : String.ofList ['z'] = "z" := rfl
  rw [feed_name rfl hparts]
  simp [flush, htrim, hblank, hname, hkey, attributeOf, OrderedMap.ofList, OrderedMap.insertAll,
    OrderedMap.insert, OrderedMap.insertEntry, OrderedMap.empty]

end Scanner

open Scanner in
/-- **What is collected as a value is recorded as it stands**, and the list goes on behind it. -/
theorem entries_listAround {colons : Bool} {value : List Char} (hquoted : Quoted value)
    (hvisible : Text.trim value ≠ [])
    (h : (valueOpened colons).Collects value ((valueOpened colons).feed value)) :
    (parseList (listAround value) colons).entries = entriesAround value := by
  have hstate : ((valueOpened colons).feed value).state.isNested = false := by
    rw [state, h.states]
    rfl
  have hcomma : ", z".toList = ',' :: " z".toList := rfl
  rw [parseList, listAround, feed_append, feed_append, feed_name_equals, hcomma, feed_cons,
    step_separator hstate rfl, h.gathers.flush_valueOpened, flush_flag, attributeOf,
    if_neg (by simpa using hvisible), hquoted.trim.interpolate]
  rfl

end Stencil.Attribute
