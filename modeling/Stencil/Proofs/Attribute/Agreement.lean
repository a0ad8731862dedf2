import Stencil.Proofs.Attribute.Literals

/-! # Agreement — two readers of the literals of a value

    The interpolation and the scanner both look for the string literals of a
    value.  The interpolation cuts the value into literals and single characters
    (`parts`), and takes the character behind a backslash along; the scanner is
    in the state `string` between a quote and the next one of its kind, whatever
    stands before that one.

    So they agree on a sequence of literals and of characters that mean nothing
    to either exactly when no literal holds its own quote (`literals_agree_iff`),
    and then the value is recorded as it stands.  They do not agree on a quote
    behind a backslash (`escapedQuote_disagrees`). -/

namespace Stencil.Attribute

/-! ## What the interpolation finds -/

/-- A literal with its quotes, or a character outside of literals. -/
inductive Part where
  | char (c : Char)
  | literal (quote : Char) (text : List Char)
deriving Repr, DecidableEq

namespace Part

/-- The characters of a part. -/
def text : Part → List Char
  | char c => [c]
  | literal _ text => text

/-- A part with its interpolations expanded. -/
def spliced : Part → List Char
  | char c => [c]
  | literal quote text => splice quote text

/-- Whether a part is a literal. -/
def isLiteral : Part → Bool
  | char _ => false
  | literal _ _ => true

end Part

/-- The parts of a value; the fuel is the length of the value. -/
def partsWith : Nat → List Char → List Part
  | 0, text => text.map .char
  | _ + 1, [] => []
  | fuel + 1, c :: rest =>
      if Text.isQuote c then
        match literalRest c rest with
        | some (body, after) => .literal c (c :: body) :: partsWith fuel after
        | none => .char c :: partsWith fuel rest
      else .char c :: partsWith fuel rest

/-- The parts of a value. -/
def parts (value : List Char) : List Part := partsWith value.length value

theorem interpolateWith_eq_parts (fuel : Nat) (text : List Char) :
    interpolateWith fuel text = (partsWith fuel text).flatMap Part.spliced := by
  fun_induction partsWith fuel text with
  | case1 text =>
      induction text with
      | nil => rfl
      | cons c rest ih => simpa [interpolateWith, Part.spliced] using ih
  | case2 => rfl
  | case3 fuel c rest hquote body after hrest ih =>
      simp [interpolateWith, hquote, hrest, ih, Part.spliced]
  | case4 fuel c rest hquote hrest ih =>
      simp [interpolateWith, hquote, hrest, ih, Part.spliced]
  | case5 fuel c rest hquote ih => simp [interpolateWith, hquote, ih, Part.spliced]

/-- **The interpolation expands what is in the literals** and leaves the other parts. -/
theorem interpolate_eq_parts (value : List Char) :
    interpolate value = (parts value).flatMap Part.spliced :=
  interpolateWith_eq_parts value.length value

/-- Whether the place behind so many characters is between the quotes of a literal. -/
def inLiteral : List Part → Nat → Bool
  | [], _ => false
  | part :: rest, place =>
      if place < part.text.length then part.isLiteral && decide (0 < place)
      else inLiteral rest (place - part.text.length)

/-- Whether the scanner is inside a string literal at the places where the interpolation is. -/
def Agree (colons : Bool) (value : List Char) : Prop :=
  ∀ place ≤ value.length,
    (({ colons } : Scanner).feed ("k=".toList ++ value.take place)).state = .string
      ↔ inLiteral (parts value) place = true

instance (colons : Bool) (value : List Char) : Decidable (Agree colons value) :=
  inferInstanceAs (Decidable (∀ place ≤ value.length, _ ↔ _))

/-! ## Sequences of literals -/

/-- A literal, or a character that means nothing in a value. -/
inductive Segment where
  | char (c : Char) (plain : Enclosure.none.Plain c)
  | literal (string : Literal)

namespace Segment

/-- A segment as it is written. -/
def write : Segment → List Char
  | char c _ => [c]
  | literal string => string.write

/-- A segment as the interpolation finds it. -/
def part : Segment → Part
  | char c _ => .char c
  | literal string => .literal string.quote string.write

/-- Whether a segment is a literal that holds its own quote. -/
def HoldsQuote : Segment → Prop
  | char _ _ => False
  | literal string => string.HoldsQuote

instance : (segment : Segment) → Decidable segment.HoldsQuote
  | char _ _ => inferInstanceAs (Decidable False)
  | literal string => inferInstanceAs (Decidable string.HoldsQuote)

/-- A sequence of segments as it is written. -/
def writeAll (segments : List Segment) : List Char := segments.flatMap write

variable (segment : Segment) {segments : List Segment}

theorem text_part : segment.part.text = segment.write := by
  cases segment <;> rfl

theorem length_write_pos : 0 < segment.write.length := by
  cases segment <;> simp [write, Literal.write]

theorem writeAll_cons : writeAll (segment :: segments) = segment.write ++ writeAll segments := rfl

theorem quoted_writeAll : Quoted (writeAll segments) := by
  induction segments with
  | nil => exact .nil
  | cons segment segments ih =>
      cases segment with
      | char c plain => exact .char plain.2.1 ih
      | literal string => exact .literal string ih

theorem partsWith_writeAll {fuel : Nat} (h : (writeAll segments).length ≤ fuel) :
    partsWith fuel (writeAll segments) = segments.map part := by
  induction segments generalizing fuel with
  | nil => cases fuel <;> rfl
  | cons segment segments ih =>
      have hpos := segment.length_write_pos
      rw [writeAll_cons, List.length_append] at h
      obtain ⟨fuel, rfl⟩ := Nat.exists_eq_add_one.mpr (by omega : 0 < fuel)
      have hrest : partsWith fuel (writeAll segments) = segments.map part := ih (by omega)
      cases segment with
      | char c plain => simp [writeAll_cons, write, partsWith, part, plain.2.1, hrest]
      | literal string =>
          have hfound :=
            string.wellFormed.literalRest_eq (writeAll segments) string.isQuote
          simp [writeAll_cons, write, Literal.write, partsWith, part, string.isQuote, hfound, hrest]

/-- **The interpolation finds the literals of a sequence.** -/
theorem parts_writeAll : parts (writeAll segments) = segments.map part :=
  partsWith_writeAll le_rfl

end Segment

/-! ## What the scanner finds -/

namespace Scanner

variable {scanner : Scanner} {quote : Char} {text : List Char}

/-- Behind an opening quote the scanner is in a literal up to the next quote of its kind. -/
theorem state_opened (h : scanner.Inside .none) (hquote : Text.isQuote quote = true)
    (htext : quote ∉ text) : (scanner.feed (quote :: text)).state = .string := by
  have hopen := step_openingQuote h hquote
  have hstate : (scanner.step quote).state = .string := by rw [hopen]; rfl
  have hsame : (scanner.step quote).quote = quote := by rw [hopen]; rfl
  have hcollects := (collects_body hstate (by rwa [hsame])).1
  rw [feed_cons, state, hcollects.states]
  exact hstate

end Scanner

namespace Segment

open Scanner

variable {scanner : Scanner} {segment : Segment} {segments : List Segment} {place : Nat}

theorem collects (h : scanner.Inside .none) (hsegment : ¬ segment.HoldsQuote) :
    scanner.Collects segment.write (scanner.feed segment.write) := by
  cases segment with
  | char c plain => exact collects_plain h plain
  | literal string => exact collects_literal h string.isQuote hsegment

/-- Inside of a segment the scanner is in a literal where the interpolation is. -/
theorem state_take_iff (h : scanner.Inside .none) (hsegment : ¬ segment.HoldsQuote)
    (hplace : place < segment.write.length) :
    (scanner.feed (segment.write.take place)).state = .string
      ↔ (segment.part.isLiteral && decide (0 < place)) = true := by
  have houtside : scanner.state ≠ .string := by
    rw [show scanner.state = .value from h]
    nofun
  rcases place with - | place
  · simpa [feed] using houtside
  · cases segment with
    | char c plain => exact absurd hplace (by simp [write])
    | literal string =>
        have hle : place ≤ string.body.length := by
          simpa [write, Literal.write, Nat.lt_succ_iff] using hplace
        have htake : string.write.take (place + 1) = string.quote :: string.body.take place := by
          rw [Literal.write, List.take_succ_cons, List.take_append_of_le_length hle]
        have hquote : string.quote ∉ string.body.take place := fun hmem =>
          hsegment (List.mem_of_mem_take hmem)
        simpa [write, htake, part, Part.isLiteral] using state_opened h string.isQuote hquote

/-- A literal that holds its own quote is left there by the scanner. -/
theorem exists_left (h : scanner.Inside .none) (hsegment : segment.HoldsQuote) :
    ∃ place, 0 < place ∧ place < segment.write.length ∧ segment.part.isLiteral = true
      ∧ (scanner.feed (segment.write.take place)).state ≠ .string := by
  cases segment with
  | char => exact hsegment.elim
  | literal string =>
      obtain ⟨front, back, hbody, hfront⟩ := List.eq_append_cons_of_mem
        (show string.quote ∈ string.body from hsegment)
      have hcollects := collects_literal h string.isQuote hfront
      have htake : string.write.take (front.length + 2)
          = string.quote :: (front ++ [string.quote]) := by
        simp [Literal.write, hbody, List.take_append, List.take_of_length_le]
      refine ⟨front.length + 2, by omega, ?_, rfl, ?_⟩
      · simp only [write, Literal.write, hbody, List.length_cons, List.length_append]
        omega
      · rw [write, htake, show _ = ScanState.value from hcollects.inside h]
        decide

/-- **The readers agree on a sequence of segments** exactly when no literal holds its own quote:
    whatever the scanner has read, the first one that does sets them apart. -/
theorem state_take_writeAll_iff (h : scanner.Inside .none) :
    (∀ place ≤ (writeAll segments).length,
        (scanner.feed ((writeAll segments).take place)).state = .string
          ↔ inLiteral (segments.map part) place = true)
      ↔ ∀ segment ∈ segments, ¬ segment.HoldsQuote := by
  induction segments generalizing scanner with
  | nil =>
      refine iff_of_true (fun place _ => ?_) nofun
      rw [writeAll, List.flatMap_nil, List.take_nil]
      simp [feed, inLiteral, show scanner.state = .value from h]
  | cons segment segments ih =>
      rw [List.forall_mem_cons, writeAll_cons, List.map_cons]
      by_cases hsegment : segment.HoldsQuote
      · refine iff_of_false (fun hall => ?_) fun hnone => hnone.1 hsegment
        obtain ⟨place, hpos, hlt, hliteral, hstate⟩ := exists_left h hsegment
        refine hstate ?_
        have hplace := hall place (by rw [List.length_append]; omega)
        rw [List.take_append_of_le_length hlt.le, inLiteral, text_part, if_pos hlt] at hplace
        exact hplace.mpr (by simp [hliteral, hpos])
      · have hcollects := collects h hsegment
        rw [and_iff_right hsegment, ← ih (hcollects.inside h)]
        constructor
        · intro hall place hplace
          have hbehind := hall (segment.write.length + place) (by rw [List.length_append]; omega)
          rw [List.take_length_add_append, feed_append, inLiteral, text_part,
            if_neg (by omega), Nat.add_sub_cancel_left] at hbehind
          exact hbehind
        · intro hall place hplace
          rw [List.length_append] at hplace
          rw [inLiteral, text_part]
          split
          · next hlt =>
              rw [List.take_append_of_le_length hlt.le]
              exact state_take_iff h hsegment hlt
          · next hge =>
              obtain ⟨behind, rfl⟩ := Nat.exists_eq_add_of_le (Nat.le_of_not_lt hge)
              rw [List.take_length_add_append, feed_append, Nat.add_sub_cancel_left]
              exact hall behind (by omega)

theorem collects_writeAll (h : scanner.Inside .none)
    (hall : ∀ segment ∈ segments, ¬ segment.HoldsQuote) :
    scanner.Collects (writeAll segments) (scanner.feed (writeAll segments)) := by
  induction segments generalizing scanner with
  | nil => exact .refl scanner
  | cons segment segments ih =>
      obtain ⟨hsegment, hrest⟩ := List.forall_mem_cons.mp hall
      have hcollects := collects h hsegment
      exact hcollects.feed_append (ih (hcollects.inside h) hrest)

end Segment

open Scanner Segment in
/-- **Scanner and interpolation find the same literals** in a sequence of literals and plain
    characters exactly when no literal holds its own quote, be it behind a backslash.  If none
    does, the value is recorded as it stands, with the commas and line feeds in its literals. -/
theorem literals_agree_iff (colons : Bool) (segments : List Segment) :
    (Agree colons (writeAll segments) ↔ ∀ segment ∈ segments, ¬ segment.HoldsQuote)
      ∧ ((∀ segment ∈ segments, ¬ segment.HoldsQuote) → Text.trim (writeAll segments) ≠ [] →
          (parseList (listAround (writeAll segments)) colons).entries
            = entriesAround (writeAll segments)) := by
  have hinside : (valueOpened colons).Inside .none := rfl
  constructor
  · rw [← state_take_writeAll_iff hinside]
    simp only [Agree, feed_append, feed_name_equals, parts_writeAll]
  · intro hall hvisible
    exact entries_listAround quoted_writeAll hvisible (collects_writeAll hinside hall)

/-- The literal `"a\", b"`. -/
def escapedQuote : Literal where
  quote := '"'
  body := "a\\\", b".toList
  isQuote := rfl
  wellFormed := (literalBody_iff rfl).mpr (by decide)
  uninterpolated := by decide +kernel

/-- **A quote behind a backslash sets the readers apart**: the scanner takes it for the end of the
    literal, and the comma behind it for the end of the attribute. -/
theorem escapedQuote_disagrees :
    ¬ Agree false escapedQuote.write
      ∧ (parseList (listAround escapedQuote.write)).entries
          = [("k", { value := .text "\"a\\\"" }), ("b", { value := .flag }),
             ("z", { value := .flag })]
      ∧ (parseList (listAround escapedQuote.write)).entries
          ≠ entriesAround escapedQuote.write := by
  decide +kernel

/-- The literal `'a, "\\'`, with a separator, the other quote and a backslash in it. -/
def mixedLiteral : Literal where
  quote := '\''
  body := "a, \"\\\\".toList
  isQuote := rfl
  wellFormed := (literalBody_iff rfl).mpr (by decide)
  uninterpolated := by decide +kernel

/-- The value `'a, "\\'+x`. -/
def mixedSegments : List Segment :=
  [.literal mixedLiteral, .char '+' (by decide), .char 'x' (by decide)]

theorem mixedSegments_agree :
    Agree false (Segment.writeAll mixedSegments)
      ∧ (parseList (listAround (Segment.writeAll mixedSegments))).entries
          = entriesAround (Segment.writeAll mixedSegments) := by
  have hall : ∀ segment ∈ mixedSegments, ¬ segment.HoldsQuote := by decide
  have hvisible : Text.trim (Segment.writeAll mixedSegments) ≠ [] := by decide
  obtain ⟨hagree, hentries⟩ := literals_agree_iff false mixedSegments
  exact ⟨hagree.mpr hall, hentries hall hvisible⟩

end Stencil.Attribute
