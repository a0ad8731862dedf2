import Mathlib.Data.List.Infix
import Stencil.Proofs.Attribute.Exposure
import Stencil.Proofs.Text.Lines

/-! # Interpolated literals — what becomes of the expressions in a literal

    A literal with interpolations is a text, and then expressions in braces with
    a text behind each (`Interpolated`).  Expanding it closes the literal before
    each expression and opens it again behind, with the quote of this literal
    (`Interpolated.expand`).

    The expansion is one function with fuel, which does not matter as long as it
    covers the text (`spliceWith_eq`), so that a text, an expression and the rest
    are expanded one behind the other (`splice_text`, `splice_insertion`).  A
    scanner in a value takes in everything but separators and quotes, whatever
    groups the brackets open and close (`AtValue.step`), and a literal as a whole.
    So a value of such literals and of other characters is recorded with its
    literals expanded and nothing else changed (`parseList_interpolated`). -/

namespace Stencil.Attribute

/-! ## Literals with interpolations -/

/-- A text between the interpolations of a literal. -/
structure IsLiteralText (quote : Char) (text : List Char) : Prop where
  unquoted : quote ∉ text
  flat : '\\' ∉ text
  uninterpolated : ¬ interpolationMark <:+: text

/-- An expression between the braces of an interpolation. -/
structure IsExpression (quote : Char) (text : List Char) : Prop where
  nonempty : text ≠ []
  unclosed : '\x7d' ∉ text
  unquoted : quote ∉ text
  flat : '\\' ∉ text

instance (quote : Char) (text : List Char) : Decidable (IsLiteralText quote text) :=
  decidable_of_iff (quote ∉ text ∧ '\\' ∉ text ∧ ¬ interpolationMark <:+: text)
    ⟨fun ⟨unquoted, flat, uninterpolated⟩ => { unquoted, flat, uninterpolated },
     fun h => ⟨h.unquoted, h.flat, h.uninterpolated⟩⟩

instance (quote : Char) (text : List Char) : Decidable (IsExpression quote text) :=
  decidable_of_iff (text ≠ [] ∧ '\x7d' ∉ text ∧ quote ∉ text ∧ '\\' ∉ text)
    ⟨fun ⟨nonempty, unclosed, unquoted, flat⟩ => { nonempty, unclosed, unquoted, flat },
     fun h => ⟨h.nonempty, h.unclosed, h.unquoted, h.flat⟩⟩

/-- An expression, and the text behind it. -/
structure Insertion where
  expression : List Char
  behind : List Char

namespace Insertion

/-- An insertion as it is written. -/
def write (insertion : Insertion) : List Char :=
  '#' :: '\x7b' :: (insertion.expression ++ '\x7d' :: insertion.behind)

/-- An insertion into a literal with the given quote, expanded. -/
def expand (quote : Char) (insertion : Insertion) : List Char :=
  quote :: (" + (".toList ++ insertion.expression ++ ") + ".toList)
    ++ quote :: insertion.behind

end Insertion

/-- A string literal with expressions in it. -/
structure Interpolated where
  quote : Char
  isQuote : Text.isQuote quote = true
  front : List Char
  isText : IsLiteralText quote front
  insertions : List Insertion
  wellFormed : ∀ insertion ∈ insertions,
    IsExpression quote insertion.expression ∧ IsLiteralText quote insertion.behind

namespace Interpolated

variable (literal : Interpolated)

/-- The characters between the quotes of a literal. -/
def body : List Char := literal.front ++ literal.insertions.flatMap Insertion.write

/-- A literal as it is written. -/
def write : List Char := literal.quote :: (literal.body ++ [literal.quote])

/-- A literal with its expressions joined in. -/
def expand : List Char :=
  literal.quote :: (literal.front ++ literal.insertions.flatMap (·.expand literal.quote)
    ++ [literal.quote])

end Interpolated

/-! ## Expanding a literal -/

section Splicing

variable {quote : Char} {text rest expression : List Char}

/-- Fuel that covers a text is as good as any other. -/
theorem spliceWith_congr {fuel other : Nat} (hfuel : text.length ≤ fuel)
    (hother : text.length ≤ other) : spliceWith quote fuel text = spliceWith quote other text := by
  induction fuel generalizing text other with
  | zero =>
      obtain rfl := List.length_eq_zero_iff.mp (Nat.le_zero.mp hfuel)
      cases other <;> rfl
  | succ fuel ih =>
      rcases text with - | ⟨c, rest⟩
      · cases other <;> rfl
      · have hpos : 0 < other := Nat.lt_of_lt_of_le (Nat.succ_pos _) hother
        obtain ⟨other, rfl⟩ := Nat.exists_eq_add_one.mpr hpos
        rw [List.length_cons, Nat.add_le_add_iff_right] at hfuel hother
        -- what stands behind an interpolation is short enough for the fuel that is left
        have hafter : ∀ {text expression after : List Char}, text.length ≤ rest.length + 1 →
            interpolation? text = some (expression, after) → after.length ≤ rest.length := by
          intro text expression after hle h
          rw [interpolation?_eq_some h] at hle
          simp only [List.length_cons, List.length_append] at hle
          omega
        unfold spliceWith
        split
        · next expression after h =>
            have hle := hafter le_rfl h
            rw [ih (hle.trans hfuel) (hle.trans hother)]
        · split
          · split
            · next expression after h =>
                have hle := hafter (Nat.le_succ _) h
                rw [ih (hle.trans hfuel) (hle.trans hother)]
            · rw [ih hfuel hother]
          · rw [ih hfuel hother]

theorem spliceWith_eq {fuel : Nat} (h : text.length ≤ fuel) :
    spliceWith quote fuel text = splice quote text := spliceWith_congr h le_rfl

theorem splice_cons {c : Char} (hc : c ≠ '\\') (h : interpolation? (c :: rest) = none) :
    splice quote (c :: rest) = c :: splice quote rest := by
  rw [splice, List.length_cons, spliceWith, h]
  simp [hc, splice]

/-- A text without interpolations stays as it is, if what stands behind it opens none. -/
theorem splice_text (hflat : '\\' ∉ text) (hmark : ¬ interpolationMark <:+: text)
    (hrest : rest.head? ≠ some '\x7b') :
    splice quote (text ++ rest) = text ++ splice quote rest := by
  induction text with
  | nil => rfl
  | cons c text ih =>
      rw [List.mem_cons, not_or] at hflat
      have hnone : interpolation? (c :: (text ++ rest)) = none := by
        unfold interpolation?
        split
        · next inner heq =>
            obtain ⟨rfl, hinner⟩ := List.cons.inj heq
            -- the brace behind the sign would be the first of the rest, or complete a mark
            rcases text with - | ⟨d, text⟩
            · exact absurd (congrArg List.head? hinner) hrest
            · obtain ⟨rfl, -⟩ := List.cons.inj hinner
              exact absurd (List.infix_append [] interpolationMark text) hmark
        · rfl
      rw [List.cons_append, splice_cons (Ne.symm hflat.1) hnone,
        ih hflat.2 (not_infix_of_suffix hmark (List.suffix_cons c text)), List.cons_append]

theorem interpolation?_eq (hne : expression ≠ []) (hclosed : '\x7d' ∉ expression) :
    interpolation? ('#' :: '\x7b' :: (expression ++ '\x7d' :: rest)) = some (expression, rest) := by
  have hopen : ∀ c ∈ expression, (c != '\x7d') = true := fun c hc =>
    bne_iff_ne.mpr fun h => hclosed (h ▸ hc)
  have hstops : Stops (· != '\x7d') ('\x7d' :: rest) := by
    rintro c ⟨rfl⟩
    rfl
  obtain ⟨c, inner, rfl⟩ := List.exists_cons_of_ne_nil hne
  simp only [interpolation?, braceExpression, takeWhile_line hopen hstops,
    dropWhile_line hopen hstops]

/-- An expression is joined in between quotes. -/
theorem splice_insertion (insertion : Insertion) (hne : insertion.expression ≠ [])
    (hclosed : '\x7d' ∉ insertion.expression) :
    splice quote (insertion.write ++ rest)
      = quote :: (" + (".toList ++ insertion.expression ++ ") + ".toList)
        ++ quote :: splice quote (insertion.behind ++ rest) := by
  have hwrite : insertion.write ++ rest = '#' :: '\x7b' ::
      (insertion.expression ++ '\x7d' :: (insertion.behind ++ rest)) := by
    simp [Insertion.write]
  have hle : (insertion.behind ++ rest).length
      ≤ (insertion.expression ++ '\x7d' :: (insertion.behind ++ rest)).length + 1 := by
    simp only [List.length_append, List.length_cons]
    omega
  rw [hwrite, splice, List.length_cons, List.length_cons, spliceWith,
    interpolation?_eq hne hclosed]
  dsimp only
  rw [spliceWith_eq hle]

end Splicing

theorem ne_of_isQuote {quote c : Char} (h : Text.isQuote quote = true)
    (hc : Text.isQuote c = false) : quote ≠ c := by
  rintro rfl
  exact absurd (hc.symm.trans h) nofun

/-- Behind an insertion comes the sign of the next one, or the quote that closes the literal. -/
theorem head?_insertions_ne {quote : Char} (hquote : Text.isQuote quote = true)
    (insertions : List Insertion) :
    (insertions.flatMap Insertion.write ++ [quote]).head? ≠ some '\x7b' := by
  cases insertions with
  | nil => exact fun h => ne_of_isQuote hquote (c := '\x7b') rfl (Option.some.inj h)
  | cons insertion insertions => exact fun h => absurd (Option.some.inj h) (by decide)

/-- **The insertions of a literal are joined in**, one behind the other. -/
theorem splice_insertions {quote : Char} (hquote : Text.isQuote quote = true)
    {insertions : List Insertion}
    (h : ∀ insertion ∈ insertions,
      IsExpression quote insertion.expression ∧ IsLiteralText quote insertion.behind) :
    splice quote (insertions.flatMap Insertion.write ++ [quote])
      = insertions.flatMap (·.expand quote) ++ [quote] := by
  induction insertions with
  | nil =>
      have hnone : interpolation? [quote] = none := by simp [interpolation?]
      exact splice_cons (ne_backslash_of_isQuote hquote) hnone
  | cons insertion insertions ih =>
      obtain ⟨⟨hexpression, htext⟩, hrest⟩ := List.forall_mem_cons.mp h
      rw [List.flatMap_cons, List.append_assoc,
        splice_insertion insertion hexpression.nonempty hexpression.unclosed,
        splice_text htext.flat htext.uninterpolated (head?_insertions_ne hquote insertions),
        ih hrest]
      simp [Insertion.expand]

namespace Interpolated

variable (literal : Interpolated)

/-- **A literal is expanded**, its expressions joined in and all else kept. -/
theorem splice_write : splice literal.quote literal.write = literal.expand := by
  have hflat : '\\' ∉ literal.quote :: literal.front := by
    rw [List.mem_cons, not_or]
    exact ⟨(ne_backslash_of_isQuote literal.isQuote).symm, literal.isText.flat⟩
  have hmark : ¬ interpolationMark <:+: literal.quote :: literal.front := by
    rw [List.infix_cons_iff, not_or]
    refine ⟨fun hfront => ?_, literal.isText.uninterpolated⟩
    exact ne_of_isQuote literal.isQuote (c := '#') rfl (List.cons_prefix_cons.mp hfront).1.symm
  have hwrite : literal.write = (literal.quote :: literal.front)
      ++ (literal.insertions.flatMap Insertion.write ++ [literal.quote]) := by
    simp [write, body]
  rw [hwrite, splice_text hflat hmark (head?_insertions_ne literal.isQuote _),
    splice_insertions literal.isQuote literal.wellFormed]
  simp [expand]

/-- The body of a literal holds neither its quote nor a backslash. -/
theorem not_mem_body {c : Char} (hc : c = literal.quote ∨ c = '\\') : c ∉ literal.body := by
  have htext : ∀ {text}, IsLiteralText literal.quote text → c ∉ text := fun h =>
    hc.elim (· ▸ h.unquoted) (· ▸ h.flat)
  have hexpression : ∀ {text}, IsExpression literal.quote text → c ∉ text := fun h =>
    hc.elim (· ▸ h.unquoted) (· ▸ h.flat)
  have hsign : ∀ sign, Text.isQuote sign = false → sign ≠ '\\' → c ≠ sign := by
    rintro sign hsign hne rfl
    rcases hc with rfl | rfl
    · exact ne_of_isQuote literal.isQuote hsign rfl
    · exact hne rfl
  rw [body, List.mem_append, List.mem_flatMap, not_or]
  refine ⟨htext literal.isText, ?_⟩
  rintro ⟨insertion, hmem, hc⟩
  obtain ⟨hinserted, hbehind⟩ := literal.wellFormed insertion hmem
  simp only [Insertion.write, List.mem_cons, List.mem_append] at hc
  rcases hc with hc | hc | hc | hc | hc
  · exact hsign '#' rfl (by decide) hc
  · exact hsign '\x7b' rfl (by decide) hc
  · exact hexpression hinserted hc
  · exact hsign '\x7d' rfl (by decide) hc
  · exact htext hbehind hc

end Interpolated

/-- A text without its quote and without backslashes can stand in a literal. -/
theorem literalBody_of_not_mem {quote : Char} {text : List Char} (hquote : quote ∉ text)
    (hflat : '\\' ∉ text) : LiteralBody quote text := by
  induction text with
  | nil => exact .nil
  | cons c text ih =>
      rw [List.mem_cons, not_or] at hquote hflat
      exact .char (Ne.symm hquote.1) (Ne.symm hflat.1) (ih hquote.2 hflat.2)

/-! ## Values -/

/-- A character of a value that is neither a separator nor a quote, or a literal. -/
inductive Piece where
  | char (c : Char) (plain : isSeparator c = false ∧ Text.isQuote c = false)
  | literal (string : Interpolated)

namespace Piece

/-- A piece as it is written. -/
def write : Piece → List Char
  | char c _ => [c]
  | literal string => string.write

/-- A piece with the expressions in its literal joined in. -/
def expand : Piece → List Char
  | char c _ => [c]
  | literal string => string.expand

/-- A value as it is written. -/
def writeAll (pieces : List Piece) : List Char := pieces.flatMap write

/-- A value with the expressions in its literals joined in. -/
def expandAll (pieces : List Piece) : List Char := pieces.flatMap expand

variable {pieces : List Piece}

theorem length_write_pos (piece : Piece) : 0 < piece.write.length := by
  cases piece <;> simp [write, Interpolated.write]

theorem interpolateWith_writeAll {fuel : Nat} (h : (writeAll pieces).length ≤ fuel) :
    interpolateWith fuel (writeAll pieces) = expandAll pieces := by
  induction pieces generalizing fuel with
  | nil => cases fuel <;> rfl
  | cons piece pieces ih =>
      have hpos := piece.length_write_pos
      have hcons : writeAll (piece :: pieces) = piece.write ++ writeAll pieces := rfl
      rw [hcons, List.length_append] at h
      obtain ⟨fuel, rfl⟩ := Nat.exists_eq_add_one.mpr (by omega : 0 < fuel)
      have hrest : interpolateWith fuel (writeAll pieces) = expandAll pieces := ih (by omega)
      rw [hcons]
      cases piece with
      | char c plain =>
          simp [write, interpolateWith, plain.2, hrest, expandAll, expand]
      | literal string =>
          have hbody := literalBody_of_not_mem (string.not_mem_body (.inl rfl))
            (string.not_mem_body (.inr rfl))
          have hfound := hbody.literalRest_eq (writeAll pieces) string.isQuote
          have hsplice := string.splice_write
          rw [Interpolated.write] at hsplice
          simp [write, Interpolated.write, interpolateWith, string.isQuote, hfound, hsplice, hrest,
            expandAll, expand]

/-- **The interpolation expands the literals of a value** and nothing else. -/
theorem interpolate_writeAll : interpolate (writeAll pieces) = expandAll pieces :=
  interpolateWith_writeAll le_rfl

end Piece

namespace Scanner

variable {scanner : Scanner} {c : Char}

/-- A scanner in a value and outside of its literals, whatever groups are open. -/
def AtValue (scanner : Scanner) : Prop :=
  ∃ groups : List Bracket, scanner.states = groups.map Bracket.state ++ [.value, .name]

theorem AtValue.exists_inside (h : scanner.AtValue) : ∃ around, scanner.Inside around := by
  obtain ⟨- | ⟨- | - | -, groups⟩, hstates⟩ := h
  · exact ⟨.none, by rw [Inside, state, hstates]; rfl⟩
  · exact ⟨.parentheses, by rw [Inside, state, hstates]; rfl⟩
  · exact ⟨.brackets, .inl (by rw [state, hstates]; rfl)⟩
  · exact ⟨.brackets, .inr (by rw [state, hstates]; rfl)⟩

theorem AtValue.isNaming (h : scanner.AtValue) : scanner.state.isNaming = false := by
  obtain ⟨- | ⟨- | - | -, groups⟩, hstates⟩ := h <;> rw [state, hstates] <;> rfl

/-- What a bracket opens is a group of its kind. -/
theorem exists_bracket_of_opened {inner group : ScanState} (h : inner.opened c = some group) :
    ∃ bracket : Bracket, group = bracket.state := by
  cases inner with
  | value =>
      simp only [ScanState.opened] at h
      split at h
      · exact ⟨.round, (Option.some.inj h).symm⟩
      · split at h
        · exact ⟨.square, (Option.some.inj h).symm⟩
        · split at h
          · exact ⟨.curly, (Option.some.inj h).symm⟩
          · cases h
  | expression =>
      simp only [ScanState.opened] at h
      split at h
      · exact ⟨.round, (Option.some.inj h).symm⟩
      · cases h
  | _ => cases h

/-- An opening bracket is taken in, and may open a group. -/
theorem AtValue.opening (h : scanner.AtValue) (hc : c = '(' ∨ c = '[' ∨ c = '\x7b') :
    scanner.Gathers [c] (scanner.step c) ∧ (scanner.step c).AtValue := by
  have hnaming := h.isNaming
  rw [step_opening hc, readOpening]
  obtain ⟨groups, hstates⟩ := h
  dsimp only
  split
  · next group hgroup =>
      obtain ⟨bracket, rfl⟩ := exists_bracket_of_opened hgroup
      rw [push, hnaming]
      exact ⟨⟨rfl, rfl, rfl, rfl, rfl⟩, bracket :: groups, congrArg (bracket.state :: ·) hstates⟩
  · rw [push, hnaming]
    exact ⟨⟨rfl, rfl, rfl, rfl, rfl⟩, groups, hstates⟩

/-- A closing bracket is taken in, and may close a group. -/
theorem AtValue.closing (h : scanner.AtValue) (hc : c = ')' ∨ c = ']' ∨ c = '\x7d') :
    scanner.Gathers [c] (scanner.step c) ∧ (scanner.step c).AtValue := by
  have hnaming := h.isNaming
  rw [step_closing hc, readClosing, push, push, hnaming]
  obtain ⟨groups, hstates⟩ := h
  dsimp only
  split
  · next hclosed =>
      refine ⟨⟨rfl, rfl, rfl, rfl, rfl⟩, groups.tail, ?_⟩
      show scanner.states.tail = _
      cases groups with
      | nil =>
          rw [state, hstates] at hclosed
          exact absurd hclosed (by simp [ScanState.isClosedBy])
      | cons bracket groups =>
          rw [hstates]
          rfl
  · exact ⟨⟨rfl, rfl, rfl, rfl, rfl⟩, groups, hstates⟩

/-- Everything but separators and quotes is taken in, and no bracket leads out of the value. -/
theorem AtValue.step (h : scanner.AtValue) (hc : isSeparator c = false ∧ Text.isQuote c = false) :
    scanner.Gathers [c] (scanner.step c) ∧ (scanner.step c).AtValue := by
  by_cases hbracket : isBracket c = true
  · simp only [isBracket, Bool.or_eq_true, beq_iff_eq, or_assoc] at hbracket
    rcases hbracket with hc | hc | hc | hc | hc | hc
    · exact h.opening (.inl hc)
    · exact h.opening (.inr (.inl hc))
    · exact h.opening (.inr (.inr hc))
    · exact h.closing (.inl hc)
    · exact h.closing (.inr (.inl hc))
    · exact h.closing (.inr (.inr hc))
  · rw [Bool.not_eq_true] at hbracket
    obtain ⟨around, hinside⟩ := h.exists_inside
    have hplain : around.Plain c := by
      cases around with
      | none => exact ⟨hc.1, hc.2, hbracket⟩
      | parentheses =>
          refine ⟨hc.2, ?_, ?_⟩ <;> rintro rfl <;> exact absurd hbracket (by decide)
      | brackets => exact ⟨hc.2, hbracket⟩
    have hcollects := collects_plain hinside hplain
    exact ⟨hcollects.gathers, h.imp fun groups hstates => hcollects.states.trans hstates⟩

end Scanner

namespace Piece

open Scanner

variable {scanner : Scanner} {pieces : List Piece}

theorem gathers (piece : Piece) (h : scanner.AtValue) :
    scanner.Gathers piece.write (scanner.feed piece.write)
      ∧ (scanner.feed piece.write).AtValue := by
  cases piece with
  | char c plain => exact h.step plain
  | literal string =>
      obtain ⟨around, hinside⟩ := h.exists_inside
      have hcollects := collects_literal hinside string.isQuote (string.not_mem_body (.inl rfl))
      exact ⟨hcollects.gathers, h.imp fun groups hstates => hcollects.states.trans hstates⟩

/-- **A value is taken in**, piece by piece. -/
theorem gathers_writeAll (h : scanner.AtValue) :
    scanner.Gathers (writeAll pieces) (scanner.feed (writeAll pieces)) := by
  induction pieces generalizing scanner with
  | nil => exact (Collects.refl scanner).gathers
  | cons piece pieces ih =>
      obtain ⟨hpiece, hvalue⟩ := piece.gathers h
      have hcons : writeAll (piece :: pieces) = piece.write ++ writeAll pieces := rfl
      rw [hcons, feed_append]
      exact hpiece.trans (ih hvalue)

theorem writeAll_eq_nil_iff : writeAll pieces = [] ↔ pieces = [] := by
  cases pieces with
  | nil => exact iff_of_true rfl rfl
  | cons piece pieces =>
      have hpos := piece.length_write_pos
      refine iff_of_false (fun h => ?_) nofun
      rw [(List.append_eq_nil_iff.mp h).1] at hpos
      exact absurd hpos (by decide)

end Piece

open Scanner Piece in
/-- **The expressions in the literals of a value are joined in**, each between the quotes of its
    own literal, and nothing else is changed.  A value of no pieces is none. -/
theorem parseList_interpolated (colons : Bool) (pieces : List Piece)
    (htrimmed : Text.trim (writeAll pieces) = writeAll pieces) :
    (parseList ("k=".toList ++ writeAll pieces) colons).entries
      = [("k", { value := if pieces = [] then .flag
                          else .text (String.ofList (expandAll pieces)) })] := by
  have hvalue : (valueOpened colons).AtValue := ⟨[], rfl⟩
  rw [parseList, feed_append, feed_name_equals,
    (gathers_writeAll hvalue).flush_valueOpened, htrimmed, attributeOf, interpolate_writeAll]
  simp only [List.isEmpty_iff, writeAll_eq_nil_iff]
  rfl

theorem isQuote_single : Text.isQuote '\'' = true := rfl

theorem isQuote_double : Text.isQuote '"' = true := rfl

/-- The literal `'a, #{f("x")}b#{y}'`, with a separator and the other quote in it. -/
def twoExpressions : Interpolated where
  quote := '\''
  isQuote := isQuote_single
  front := "a, ".toList
  isText := by decide +kernel
  insertions := [⟨"f(\"x\")".toList, ['b']⟩, ⟨['y'], []⟩]
  wellFormed := by
    simp only [List.forall_mem_cons]
    exact ⟨by decide +kernel, by decide +kernel, fun _ h => absurd h List.not_mem_nil⟩

/-- The literal `"#{z}"`. -/
def oneExpression : Interpolated where
  quote := '"'
  isQuote := isQuote_double
  front := []
  isText := by decide +kernel
  insertions := [⟨['z'], []⟩]
  wellFormed := by
    simp only [List.forall_mem_cons]
    exact ⟨by decide +kernel, fun _ h => absurd h List.not_mem_nil⟩

/-- The two literals with a sign between them, and an interpolation behind that is in neither. -/
def mixedPieces : List Piece :=
  [.literal twoExpressions, .char '+' (by decide), .literal oneExpression, .char '#' (by decide),
   .char '\x7b' (by decide), .char 'w' (by decide), .char '\x7d' (by decide)]

theorem parseList_interpolated_mixed :
    Text.trim (Piece.writeAll mixedPieces) = Piece.writeAll mixedPieces
      ∧ (parseList ("k=".toList ++ Piece.writeAll mixedPieces)).entries
        = [("k", { value := .text
                     "'a, ' + (f(\"x\")) + 'b' + (y) + ''+\"\" + (z) + \"\"#\x7bw\x7d" })] := by
  have htrimmed : Text.trim (Piece.writeAll mixedPieces) = Piece.writeAll mixedPieces := by
    decide +kernel
  exact ⟨htrimmed, (parseList_interpolated false mixedPieces htrimmed).trans (by decide +kernel)⟩

end Stencil.Attribute
