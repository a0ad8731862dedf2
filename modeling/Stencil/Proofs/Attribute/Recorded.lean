import Mathlib.Data.List.DropRight
import Stencil.Proofs.Attribute.Written
import Stencil.Proofs.Text.Trim

/-! # What an entry records — its value and its name

    A value without an interpolation is recorded as it was written
    (`interpolate_of_not_infix`).  The name is collected with the bang that
    stands at it (`Entry.collected`), and recorded without
    (`Entry.recordedName_collected`). -/

namespace Stencil.Attribute

/-! ## Values without interpolations -/

/-- What opens an interpolation. -/
def interpolationMark : List Char := ['#', '\x7b']

variable {text more : List Char}

theorem interpolation?_eq_none (h : ¬ interpolationMark <:+: text) :
    interpolation? text = none := by
  unfold interpolation?
  split
  · next rest => exact absurd (List.infix_append [] interpolationMark rest) h
  · rfl

/-- What stands at the end of a text holds no interpolation when the text holds none. -/
theorem not_infix_of_suffix (h : ¬ interpolationMark <:+: text) (hmore : more <:+ text) :
    ¬ interpolationMark <:+: more :=
  fun hmark => h (hmark.trans hmore.isInfix)

theorem spliceWith_of_not_infix (quote : Char) (fuel : Nat)
    (h : ¬ interpolationMark <:+: text) : spliceWith quote fuel text = text := by
  induction fuel generalizing text with
  | zero => rfl
  | succ fuel ih =>
      rcases text with - | ⟨c, rest⟩
      · rfl
      · have hrest := not_infix_of_suffix h (List.suffix_cons c rest)
        simp only [spliceWith, interpolation?_eq_none h, interpolation?_eq_none hrest, ih hrest,
          ite_self]

/-- A literal is the front of the text that it is read from. -/
theorem literalRest_append {quote : Char} {body after : List Char}
    (h : literalRest quote text = some (body, after)) : body ++ after = text := by
  fun_induction literalRest quote text generalizing body with
  | case1 => exact nomatch h
  | case2 => exact nomatch h
  | case3 c rest _ ih =>
      obtain ⟨⟨more, rest'⟩, hrest, hpair⟩ := Option.map_eq_some_iff.mp h
      obtain ⟨rfl, rfl⟩ := Prod.mk.inj hpair
      rw [← ih hrest]
      rfl
  | case4 c rest =>
      obtain ⟨rfl, rfl⟩ := Prod.mk.inj (Option.some.inj h)
      rfl
  | case5 => exact nomatch h
  | case6 c rest _ _ _ ih =>
      obtain ⟨⟨more, rest'⟩, hrest, hpair⟩ := Option.map_eq_some_iff.mp h
      obtain ⟨rfl, rfl⟩ := Prod.mk.inj hpair
      rw [← ih hrest]
      rfl

theorem interpolateWith_of_not_infix (fuel : Nat) (h : ¬ interpolationMark <:+: text) :
    interpolateWith fuel text = text := by
  induction fuel generalizing text with
  | zero => rfl
  | succ fuel ih =>
      rcases text with - | ⟨c, rest⟩
      · rfl
      · have hrest := not_infix_of_suffix h (List.suffix_cons c rest)
        unfold interpolateWith
        split
        · split
          · next body after hliteral =>
              have happend := literalRest_append hliteral
              rw [← happend, ← List.cons_append] at h
              have hbody : ¬ interpolationMark <:+: c :: body :=
                fun hmark => h (hmark.trans (List.prefix_append _ _).isInfix)
              have hafter := not_infix_of_suffix h (List.suffix_append (c :: body) after)
              rw [splice, spliceWith_of_not_infix c _ hbody, ih hafter, List.cons_append, happend]
          · rw [ih hrest]
        · rw [ih hrest]

/-- **A value without an interpolation stays as it is.** -/
theorem interpolate_of_not_infix (h : ¬ interpolationMark <:+: text) : interpolate text = text :=
  interpolateWith_of_not_infix _ h

/-! ## Names -/

theorem dropTrailingQuote_of_unquoted (h : ∀ c ∈ text, Text.isQuote c = false) :
    Text.dropTrailingQuote text = text := by
  fun_induction Text.dropTrailingQuote text with
  | case1 => rfl
  | case2 c hquote => simp [h c] at hquote
  | case3 => rfl
  | case4 c hquote => simp [h c] at hquote
  | case5 => rfl
  | case6 c rest _ _ ih => rw [ih fun c hc => h c (List.mem_cons_of_mem _ hc)]

theorem stripQuotes_of_unquoted (h : ∀ c ∈ text, Text.isQuote c = false) :
    Text.stripQuotes text = text := by
  have hfront : Text.dropLeadingQuote text = text := by
    cases text with
    | nil => rfl
    | cons c rest => simp [Text.dropLeadingQuote, h c]
  rw [Text.stripQuotes, hfront, dropTrailingQuote_of_unquoted h]

namespace WrittenName

variable (name : WrittenName)

theorem not_bang_of_mem {c : Char} (h : c ∈ name.text.toList) : c ≠ '!' :=
  (name.plain c h).2.2.2.2.2

theorem head_eq : ∃ c rest, name.text.toList = c :: rest ∧ c ≠ '!' := by
  obtain ⟨c, rest, hname⟩ := List.exists_cons_of_ne_nil name.nonempty
  exact ⟨c, rest, hname, name.not_bang_of_mem (hname ▸ List.mem_cons_self)⟩

end WrittenName

/-- A name with the bang that stands at it: behind the name before an equals sign, else before. -/
def Entry.collected (entry : Entry) : List Char :=
  match entry.escaped, entry.value with
  | true, _ => entry.name.text.toList
  | false, some _ => entry.name.text.toList ++ ['!']
  | false, none => '!' :: entry.name.text.toList

/-- An entry is its name with a bang or without, and then its value. -/
theorem Entry.write_eq (colons : Bool) (entry : Entry) :
    entry.write colons
      = entry.collected
          ++ (entry.value.elim [] fun value => equalsSign colons :: value.text.toList) := by
  obtain ⟨name, value | value, - | -⟩ := entry <;>
    simp [Entry.write, Entry.collected]

namespace Entry

variable (entry : Entry)

theorem collected_ne_nil : entry.collected ≠ [] := by
  obtain ⟨name, value | value, - | -⟩ := entry <;>
    simp [collected, name.nonempty]

/-- The bang at a name is no white space. -/
theorem trim_collected : Text.trim entry.collected = entry.collected := by
  obtain ⟨hhead, hlast⟩ := Text.dropAround_eq_self_iff.mp entry.name.trimmed
  have hbang : Text.isBlank '!' = false := by decide
  refine Text.dropAround_eq_self_iff.mpr ?_
  obtain ⟨name, value | value, - | -⟩ := entry
  · exact ⟨by simp [collected, hbang], by
      simpa [collected, List.getLast?_cons, hbang, List.getLast?_eq_some_getLast name.nonempty]
        using hlast⟩
  · exact ⟨hhead, hlast⟩
  · exact ⟨by
      simpa [collected, List.head?_append, List.head?_eq_some_head name.nonempty] using hhead,
      by simp [collected, hbang]⟩
  · exact ⟨hhead, hlast⟩

/-- A name is recorded without the bang at it. -/
theorem recordedName_collected :
    Scanner.recordedName entry.collected = entry.name.text.toList := by
  have hkept : ∀ {c}, c ∈ entry.name.text.toList → (c == '!') = false :=
    fun hc => beq_eq_false_iff_ne.mpr (entry.name.not_bang_of_mem hc)
  have hname : Text.dropAround (· == '!') entry.name.text.toList = entry.name.text.toList :=
    Text.dropAround_eq_self_iff.mpr ⟨fun c hc => hkept (List.mem_of_mem_head? hc),
      fun c hc => hkept (List.mem_of_mem_getLast? hc)⟩
  have hunquoted : ∀ c ∈ entry.collected, Text.isQuote c = false := by
    have hplain : ∀ c ∈ entry.name.text.toList, Text.isQuote c = false :=
      fun c hc => (entry.name.plain c hc).2.1
    have hbang : Text.isQuote '!' = false := by decide
    obtain ⟨name, value | value, - | -⟩ := entry <;>
      simp only [collected, List.mem_cons, List.mem_append, List.not_mem_nil, or_false]
    · rintro c (rfl | hc)
      · exact hbang
      · exact hplain c hc
    · exact hplain
    · rintro c (hc | rfl)
      · exact hplain c hc
      · exact hbang
    · exact hplain
  rw [Scanner.recordedName, stripQuotes_of_unquoted hunquoted]
  obtain ⟨name, value | value, - | -⟩ := entry
  · simpa [collected, Text.dropAround] using hname
  · exact hname
  · obtain ⟨c, rest, htext, hc⟩ := name.head_eq
    have hdrop : (name.text.toList ++ ['!']).dropWhile (· == '!') = name.text.toList ++ ['!'] := by
      rw [htext]
      simp [hc]
    rw [collected, Text.dropAround, hdrop]
    exact (List.rdropWhile_concat_pos (p := (· == '!')) name.text.toList '!' (by simp)).trans
      (Text.dropEndWhile_eq_self_iff.mpr fun c hc => hkept (List.mem_of_mem_getLast? hc))
  · exact hname

theorem trim_value :
    Text.trim (entry.value.elim [] (·.text.toList)) = entry.value.elim [] (·.text.toList) := by
  cases entry.value with
  | none => rfl
  | some value => exact value.trimmed

/-- A bang stands behind a name whose value is not escaped. -/
theorem getLast?_collected_of_value (h : entry.value.isSome) :
    (entry.collected.getLast? == some '!') = !entry.escaped := by
  obtain ⟨name, value | value, - | -⟩ := entry
  · exact nomatch h
  · exact nomatch h
  · simp [collected]
  · have hlast : name.text.toList.getLast? ≠ some '!' := fun hlast =>
      name.not_bang_of_mem (List.mem_of_mem_getLast? hlast) rfl
    simpa [collected] using hlast

end Entry

end Stencil.Attribute
