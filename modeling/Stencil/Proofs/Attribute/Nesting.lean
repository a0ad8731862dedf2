import Stencil.Proofs.Attribute.Literals

/-! # Nesting — groups in a value, and what keeps their separators in it

    A value is well nested when every bracket in it is closed by one of its own
    kind, to any depth and in any mixture, and every quote stands at a literal
    (`Nesting`).

    A scanner inside a value keeps at most one group in mind, and that group
    shelters the separators in it.  It is the group that was opened where nothing
    sheltered.  Parentheses count the parentheses in them and shelter up to their
    own end; a bracket or a brace shelters only up to the next closing bracket or
    brace of its kind, which may be that of a group inside of it (`shelter`).  What
    comes then is not sheltered, and a separator in it is exposed (`exposes`).

    A value without an exposed separator is taken in as a whole
    (`Nesting.gathers`), any other one only up to the first (`Nesting.exists_cut`). -/

namespace Stencil.Attribute

/-! ## Well-nested values -/

/-- The kinds of groups. -/
inductive Bracket where
  /-- Parentheses. -/
  | round
  /-- Brackets. -/
  | square
  /-- Braces. -/
  | curly
deriving Repr, DecidableEq

namespace Bracket

/-- The character that opens a group. -/
def opening : Bracket → Char
  | round => '('
  | square => '['
  | curly => '\x7b'

/-- The character that closes a group. -/
def closing : Bracket → Char
  | round => ')'
  | square => ']'
  | curly => '\x7d'

/-- The state of a scanner inside a group. -/
def state : Bracket → ScanState
  | round => .expression
  | square => .array
  | curly => .object

end Bracket

/-- Values in which the groups are nested and the quotes stand at literals. -/
inductive Nesting where
  | nil
  | char (c : Char) (plain : Text.isQuote c = false ∧ isBracket c = false) (rest : Nesting)
  /-- A string literal without a backslash. -/
  | literal (string : Literal) (flat : '\\' ∉ string.body) (rest : Nesting)
  | group (bracket : Bracket) (inner rest : Nesting)

namespace Nesting

/-- A value as it is written. -/
def write : Nesting → List Char
  | nil => []
  | char c _ rest => c :: rest.write
  | literal string _ rest => string.write ++ rest.write
  | group bracket inner rest => bracket.opening :: (inner.write ++ bracket.closing :: rest.write)

/-- Whether every separator stands in a group or in a literal. -/
def guarded : Nesting → Bool
  | nil => true
  | char c _ rest => !isSeparator c && rest.guarded
  | literal _ _ rest => rest.guarded
  | group _ _ rest => rest.guarded

/-- What shelters behind the end of a group, from what sheltered before the group and inside it
    before the end. -/
def sheltersBehind (before : Option Bracket) (bracket : Bracket) (inside : Option Bracket) :
    Option Bracket :=
  if before = some .round then before else if inside = some bracket then none else inside

/-- What shelters behind a text, from what shelters before it. -/
def shelter : Option Bracket → Nesting → Option Bracket
  | before, nil => before
  | before, char _ _ rest => rest.shelter before
  | before, literal _ _ rest => rest.shelter before
  | before, group bracket inner rest =>
      rest.shelter (sheltersBehind before bracket (inner.shelter (before.or (some bracket))))

/-- Whether a separator stands where nothing shelters it. -/
def exposes : Option Bracket → Nesting → Bool
  | _, nil => false
  | before, char c _ rest => before.isNone && isSeparator c || rest.exposes before
  | before, literal _ _ rest => rest.exposes before
  | before, group bracket inner rest =>
      inner.exposes (before.or (some bracket))
        || rest.exposes
            (sheltersBehind before bracket (inner.shelter (before.or (some bracket))))

theorem quoted_write (value : Nesting) : Quoted value.write := by
  induction value with
  | nil => exact .nil
  | char c plain rest ih => exact .char plain.1 ih
  | literal string flat rest ih => exact .literal string ih
  | group bracket inner rest ihinner ih =>
      have hclosing : Quoted (bracket.closing :: rest.write) := .char (by cases bracket <;> rfl) ih
      exact .char (by cases bracket <;> rfl) (ihinner.append hclosing)

/-- Parentheses shelter up to their own end. -/
theorem shelter_round (value : Nesting) : value.shelter (some .round) = some .round := by
  induction value with
  | nil => rfl
  | char c plain rest ih => exact ih
  | literal string flat rest ih => exact ih
  | group bracket inner rest ihinner ih => rw [shelter, sheltersBehind, if_pos rfl, ih]

theorem exposes_round (value : Nesting) : value.exposes (some .round) = false := by
  induction value with
  | nil => rfl
  | char c plain rest ih => simp [exposes, ih]
  | literal string flat rest ih => exact ih
  | group bracket inner rest ihinner ih =>
      rw [exposes, sheltersBehind, if_pos rfl, Option.some_or, ihinner, ih]
      rfl

/-- A shelter ends, but no other one lasts in its place. -/
theorem shelter_eq_or (value : Nesting) (before : Option Bracket) :
    value.shelter before = before ∨ value.shelter before = none := by
  induction value generalizing before with
  | nil => exact .inl rfl
  | char c plain rest ih => exact ih before
  | literal string flat rest ih => exact ih before
  | group bracket inner rest ihinner ih =>
      rw [shelter, sheltersBehind]
      split
      · exact ih before
      · rcases before with - | outer
        · rcases ihinner (some bracket) with hinner | hinner <;>
            simpa [hinner] using ih none
        · rcases ihinner (some outer) with hinner | hinner
          · rw [Option.some_or, hinner]
            split
            · exact .inr ((ih none).elim id id)
            · exact ih (some outer)
          · simp only [Option.some_or, hinner]
            exact .inr ((ih none).elim id id)

end Nesting

/-! ## Inside parentheses -/

theorem WellNested.append {around : Enclosure} {text more : List Char}
    (h : WellNested around text) (hmore : WellNested around more) :
    WellNested around (text ++ more) := by
  induction h with
  | nil => exact hmore
  | char plain after ih => exact .char plain (ih hmore)
  | literal isQuote unquoted after ih =>
      simpa [List.append_assoc] using WellNested.literal isQuote unquoted (ih hmore)
  | group outside within after _ ih =>
      simpa [List.append_assoc] using WellNested.group outside within (ih hmore)
  | array within after _ ih =>
      simpa [List.append_assoc] using WellNested.array within (ih hmore)
  | object within after _ ih =>
      simpa [List.append_assoc] using WellNested.object within (ih hmore)

namespace Nesting

/-- Inside parentheses only parentheses count, and the other groups are characters. -/
theorem wellNested_write (value : Nesting) : WellNested .parentheses value.write := by
  induction value with
  | nil => exact .nil
  | char c plain rest ih =>
      refine .char ⟨plain.1, ?_, ?_⟩ ih <;> rintro rfl <;> exact absurd plain.2 (by decide)
  | literal string flat rest ih =>
      simpa [write, Literal.write]
        using WellNested.literal string.isQuote (string.wellFormed.unquoted flat) ih
  | group bracket inner rest ihinner ih =>
      cases bracket with
      | round => exact .group (by rintro ⟨⟩) ihinner ih
      | square => exact .char (by decide) (ihinner.append (.char (by decide) ih))
      | curly => exact .char (by decide) (ihinner.append (.char (by decide) ih))

end Nesting

/-! ## Reading -/

namespace Scanner

variable {first middle after scanner : Scanner} {text more : List Char} {c : Char}
  {below : List ScanState} {before : Option Bracket}

theorem Gathers.trans (h : first.Gathers text middle) (hmore : middle.Gathers more after) :
    first.Gathers (text ++ more) after where
  colons := hmore.colons.trans h.colons
  name := hmore.name.trans h.name
  value := by rw [hmore.value, h.value, List.append_assoc]
  unescaped := hmore.unescaped.trans h.unescaped
  attributes := hmore.attributes.trans h.attributes

/-- The states of a scanner in a value, with what shelters there. -/
def sheltered (below : List ScanState) : Option Bracket → List ScanState
  | none => .value :: below
  | some bracket => bracket.state :: .value :: below

/-- Taking in a text in a value, where something shelters behind it. -/
structure Shelters (first : Scanner) (text : List Char) (below : List ScanState)
    (behind : Option Bracket) (after : Scanner) : Prop where
  gathers : first.Gathers text after
  states : after.states = sheltered below behind

/-- What surrounds a scanner, from what shelters. -/
def enclosure : Option Bracket → Enclosure
  | none => .none
  | some .round => .parentheses
  | some .square | some .curly => .brackets

theorem inside_of_sheltered (h : scanner.states = sheltered below before) :
    scanner.Inside (enclosure before) := by
  have hstate : scanner.state = (sheltered below before).headD .name := by rw [state, h]
  rcases before with - | - | - | -
  · exact hstate
  · exact hstate
  · exact .inl hstate
  · exact .inr hstate

theorem Collects.shelters (h : scanner.Collects text after)
    (hstates : scanner.states = sheltered below before) :
    scanner.Shelters text below before after :=
  ⟨h.gathers, h.states.trans hstates⟩

/-- A group that is opened where nothing shelters is a shelter from there on. -/
theorem shelters_opening (h : scanner.states = sheltered below before)
    (hround : before ≠ some .round) (bracket : Bracket) :
    scanner.Shelters [bracket.opening] below (before.or (some bracket))
      (scanner.step bracket.opening) := by
  have hstate : scanner.state = (sheltered below before).headD .name := by rw [state, h]
  have hopening : bracket.opening = '(' ∨ bracket.opening = '[' ∨ bracket.opening = '\x7b' := by
    cases bracket <;> simp [Bracket.opening]
  rw [step_opening hopening]
  rcases before with - | - | - | -
  · have hstep : scanner.readOpening bracket.opening
        = (scanner.enter bracket.state).pushValue bracket.opening := by
      cases bracket <;> simp [readOpening, hstate, sheltered, ScanState.opened, Bracket.opening,
        Bracket.state, push, ScanState.isNaming]
    rw [hstep]
    exact ⟨⟨rfl, rfl, rfl, rfl, rfl⟩, congrArg (bracket.state :: ·) h⟩
  · exact absurd rfl hround
  all_goals
    have hstep : scanner.readOpening bracket.opening = scanner.pushValue bracket.opening := by
      simp [readOpening, hstate, sheltered, ScanState.opened, Bracket.state, push,
        ScanState.isNaming]
    rw [hstep]
    exact ⟨⟨rfl, rfl, rfl, rfl, rfl⟩, h⟩

/-- A closing bracket ends the shelter of its kind, and no other one. -/
theorem shelters_closing (h : scanner.states = sheltered below before) (bracket : Bracket) :
    scanner.Shelters [bracket.closing] below (if before = some bracket then none else before)
      (scanner.step bracket.closing) := by
  have hstate : scanner.state = (sheltered below before).headD .name := by rw [state, h]
  have hclosing : bracket.closing = ')' ∨ bracket.closing = ']' ∨ bracket.closing = '\x7d' := by
    cases bracket <;> simp [Bracket.closing]
  rw [step_closing hclosing]
  split
  · next hsame =>
      subst hsame
      have hstep : scanner.readClosing bracket.closing
          = scanner.leave.pushValue bracket.closing := by
        cases bracket <;> simp [readClosing, hstate, sheltered, ScanState.isClosedBy,
          Bracket.closing, Bracket.state, push, ScanState.isNaming]
      rw [hstep]
      exact ⟨⟨rfl, rfl, rfl, rfl, rfl⟩, by simp [pushValue, leave, h, sheltered]⟩
  · next hother =>
      have hstep : scanner.readClosing bracket.closing = scanner.pushValue bracket.closing := by
        rcases before with - | - | - | - <;> cases bracket <;>
          first
          | exact absurd rfl hother
          | simp [readClosing, hstate, sheltered, ScanState.isClosedBy, Bracket.closing,
              Bracket.state, push, ScanState.isNaming]
      rw [hstep]
      exact ⟨⟨rfl, rfl, rfl, rfl, rfl⟩, h⟩

theorem Shelters.feed_append {behind last : Option Bracket}
    (h : scanner.Shelters text below behind (scanner.feed text))
    (hmore : (scanner.feed text).Shelters more below last ((scanner.feed text).feed more)) :
    scanner.Shelters (text ++ more) below last (scanner.feed (text ++ more)) := by
  rw [Scanner.feed_append]
  exact ⟨h.gathers.trans hmore.gathers, hmore.states⟩

end Scanner

namespace Nesting

open Scanner

variable {scanner : Scanner} {below : List ScanState} {before : Option Bracket}

/-- A character that is not an exposed separator is taken in. -/
theorem collects_char {c : Char} (plain : Text.isQuote c = false ∧ isBracket c = false)
    (h : scanner.states = sheltered below before)
    (hsheltered : (before.isNone && isSeparator c) = false) :
    scanner.Collects [c] (scanner.step c) := by
  refine collects_plain (inside_of_sheltered h) ?_
  rcases before with - | - | - | -
  · exact ⟨hsheltered, plain⟩
  · refine ⟨plain.1, ?_, ?_⟩ <;> rintro rfl <;> exact absurd plain.2 (by decide)
  · exact plain
  · exact plain

theorem collects_string (string : Literal) (flat : '\\' ∉ string.body)
    (h : scanner.states = sheltered below before) :
    scanner.Collects string.write (scanner.feed string.write) :=
  collects_literal (inside_of_sheltered h) string.isQuote (string.wellFormed.unquoted flat)

/-- **A value without exposed separators is taken in** as a whole, with what shelters behind
    it. -/
theorem gathers (value : Nesting) (h : scanner.states = sheltered below before)
    (hsheltered : value.exposes before = false) :
    scanner.Shelters value.write below (value.shelter before) (scanner.feed value.write) := by
  induction value generalizing scanner before with
  | nil => exact (Collects.refl scanner).shelters h
  | char c plain rest ih =>
      obtain ⟨hc, hrest⟩ := Bool.or_eq_false_iff.mp hsheltered
      have hstep := (collects_char plain h hc).shelters h
      exact hstep.feed_append (ih hstep.states hrest)
  | literal string flat rest ih =>
      have hstring := (collects_string string flat h).shelters h
      exact hstring.feed_append (ih hstring.states hsheltered)
  | group bracket inner rest ihinner ih =>
      by_cases hround : before = some .round
      · -- inside parentheses, the group is well nested
        subst hround
        rw [shelter_round]
        exact ((group bracket inner rest).wellNested_write.collects
          (inside_of_sheltered h)).shelters h
      · obtain ⟨hinner, hrest⟩ := Bool.or_eq_false_iff.mp hsheltered
        have hopen := shelters_opening h hround bracket
        have hbody := hopen.feed_append (ihinner hopen.states hinner)
        have hclose := hbody.feed_append (shelters_closing hbody.states bracket)
        rw [sheltersBehind, if_neg hround] at hrest
        have hall := hclose.feed_append (ih hclose.states hrest)
        rw [shelter, sheltersBehind, if_neg hround]
        simpa [write] using hall

/-- A text is cut at a separator that nothing shelters.  If the separator is guarded, the end of
    what guards it stands behind it. -/
structure Cut (scanner : Scanner) (below : List ScanState) (text : List Char) (guarded : Bool)
    (front : List Char) (separator : Char) (back : List Char) : Prop where
  text_eq : text = front ++ separator :: back
  isSeparator : isSeparator separator = true
  quoted : Quoted front
  shelters : scanner.Shelters front below none (scanner.feed front)
  visible : guarded = true → ∃ c ∈ back, Text.isBlank c = false

variable {text more front back : List Char} {separator : Char} {guarded : Bool}
  {behind : Option Bracket}

/-- What is cut behind a text is cut behind all of it. -/
theorem Cut.append_left (taken : List Char)
    (h : Cut (scanner.feed taken) below text guarded front separator back)
    (htaken : scanner.Shelters taken below behind (scanner.feed taken)) (hquoted : Quoted taken) :
    Cut scanner below (taken ++ text) guarded (taken ++ front) separator back where
  text_eq := by rw [h.text_eq, List.append_assoc]
  isSeparator := h.isSeparator
  quoted := hquoted.append h.quoted
  shelters := htaken.feed_append h.shelters
  visible := h.visible

/-- What is cut before something visible is guarded by it. -/
theorem Cut.append_right (h : Cut scanner below text guarded front separator back)
    (hmore : ∃ c ∈ more, Text.isBlank c = false) :
    Cut scanner below (text ++ more) true front separator (back ++ more) where
  text_eq := by rw [h.text_eq, List.append_assoc, List.cons_append]
  isSeparator := h.isSeparator
  quoted := h.quoted
  shelters := h.shelters
  visible := by
    intro _
    obtain ⟨c, hmem, hc⟩ := hmore
    exact ⟨c, List.mem_append_right back hmem, hc⟩

theorem Cut.unguard {weaker : Bool} (h : Cut scanner below text guarded front separator back)
    (hweaker : weaker = true → guarded = true) :
    Cut scanner below text weaker front separator back :=
  { h with visible := fun hguarded => h.visible (hweaker hguarded) }

/-- **A value is cut at its first exposed separator.** -/
theorem exists_cut (value : Nesting) (h : scanner.states = sheltered below before)
    (hexposed : value.exposes before = true) :
    ∃ front separator back, Cut scanner below value.write value.guarded front separator back := by
  induction value generalizing scanner before with
  | nil => exact nomatch hexposed
  | char c plain rest ih =>
      by_cases hc : (before.isNone && Attribute.isSeparator c) = true
      · obtain ⟨hnone, hseparator⟩ := Bool.and_eq_true_iff.mp hc
        obtain rfl : before = none := Option.isNone_iff_eq_none.mp hnone
        refine ⟨[], c, rest.write, rfl, hseparator, .nil, (Collects.refl scanner).shelters h, ?_⟩
        simp [Nesting.guarded, hseparator]
      · rw [Bool.not_eq_true] at hc
        have hstep := (collects_char plain h hc).shelters h
        have hrest : rest.exposes before = true := by simpa [exposes, hc] using hexposed
        obtain ⟨front, separator, back, hcut⟩ := ih hstep.states hrest
        exact ⟨_, _, _, (hcut.append_left [c] hstep (.char plain.1 .nil)).unguard
          fun hguarded => (Bool.and_eq_true_iff.mp hguarded).2⟩
  | literal string flat rest ih =>
      have hstring := (collects_string string flat h).shelters h
      obtain ⟨front, separator, back, hcut⟩ := ih hstring.states hexposed
      have hquoted : Quoted string.write := by simpa using Quoted.literal string .nil
      exact ⟨_, _, _, hcut.append_left string.write hstring hquoted⟩
  | group bracket inner rest ihinner ih =>
      have hround : before ≠ some .round := by
        rintro rfl
        rw [exposes_round] at hexposed
        exact nomatch hexposed
      have hopen := shelters_opening h hround bracket
      have hopening : Quoted [bracket.opening] := .char (by cases bracket <;> rfl) .nil
      by_cases hinner : inner.exposes (before.or (some bracket)) = true
      · -- the bracket that closes the group stands behind the separator
        obtain ⟨front, separator, back, hcut⟩ := ihinner hopen.states hinner
        have hclosing : ∃ c ∈ bracket.closing :: rest.write, Text.isBlank c = false :=
          ⟨bracket.closing, List.mem_cons_self, by cases bracket <;> decide⟩
        have hgroup :=
          (hcut.append_right hclosing).append_left [bracket.opening] hopen hopening
        exact ⟨_, _, _, hgroup.unguard fun _ => rfl⟩
      · rw [Bool.not_eq_true] at hinner
        have hbody := hopen.feed_append (inner.gathers hopen.states hinner)
        have hclose := hbody.feed_append (shelters_closing hbody.states bracket)
        have hrest := hexposed
        rw [exposes, hinner, Bool.false_or, sheltersBehind, if_neg hround] at hrest
        obtain ⟨front, separator, back, hcut⟩ := ih hclose.states hrest
        have hquoted : Quoted (([bracket.opening] ++ inner.write) ++ [bracket.closing]) :=
          (hopening.append inner.quoted_write).append (.char (by cases bracket <;> rfl) .nil)
        have hwrite : (group bracket inner rest).write
            = (([bracket.opening] ++ inner.write) ++ [bracket.closing]) ++ rest.write := by
          simp [write]
        rw [hwrite]
        exact ⟨_, _, _, hcut.append_left _ hclose hquoted⟩

end Nesting

end Stencil.Attribute
