import Stencil.Proofs.Attribute.Written

/-! # Collecting — how a scanner takes a value in

    Whatever state a scanner is in, a character goes to one of six readers, so a
    step is known where all six agree (`step_eq`).  A scanner that is inside a
    value collects a well-nested text as it stands and is then inside of what it
    was inside of before (`WellNested.collects`): what the text opens, it closes,
    and no separator, equals sign or quote in it means anything.  The proof
    follows the text, and does one group and one literal at a time. -/

namespace Stencil.Attribute

namespace Scanner

variable {before middle after scanner : Scanner} {around : Enclosure} {c quote : Char}
  {text more : List Char}

/-- A scanner has collected a text for the value, and is inside of what it was inside of. -/
structure Collects (before : Scanner) (text : List Char) (after : Scanner) : Prop where
  colons : after.colons = before.colons
  states : after.states = before.states
  name : after.name = before.name
  value : after.value = before.value ++ text
  unescaped : after.unescaped = before.unescaped
  attributes : after.attributes = before.attributes

theorem Collects.refl (scanner : Scanner) : scanner.Collects [] scanner :=
  ⟨rfl, rfl, rfl, (List.append_nil _).symm, rfl, rfl⟩

theorem Collects.trans (h : before.Collects text middle) (hmore : middle.Collects more after) :
    before.Collects (text ++ more) after where
  colons := hmore.colons.trans h.colons
  states := hmore.states.trans h.states
  name := hmore.name.trans h.name
  value := by rw [hmore.value, h.value, List.append_assoc]
  unescaped := hmore.unescaped.trans h.unescaped
  attributes := hmore.attributes.trans h.attributes

theorem feed_cons (scanner : Scanner) (c : Char) (text : List Char) :
    scanner.feed (c :: text) = (scanner.step c).feed text := rfl

theorem feed_append (scanner : Scanner) (text more : List Char) :
    scanner.feed (text ++ more) = (scanner.feed text).feed more :=
  List.foldl_append

/-! ## One character -/

/-- A step is what is done at a character of its sort, whichever that is. -/
theorem step_eq {next : Scanner}
    (separator : isSeparator c = true → scanner.readSeparator c = next)
    (equals : c = '=' ∨ c = ':' → scanner.readEquals c = next)
    (opening : isBracket c = true → scanner.readOpening c = next)
    (closing : isBracket c = true → scanner.readClosing c = next)
    (quote : Text.isQuote c = true → scanner.readQuote c = next)
    (other : scanner.push scanner.state c = next) :
    scanner.step c = { next with last := some (meaning scanner.colons c) } := by
  unfold step
  by_cases hcolon : (scanner.colons && c == ':') = true
  · have hmeaning : meaning scanner.colons c = '=' := if_pos hcolon
    rw [hmeaning, equals (.inr (by simpa using (Bool.and_eq_true_iff.mp hcolon).2))]
    rfl
  · have hmeaning : meaning scanner.colons c = c := if_neg hcolon
    rw [hmeaning]
    dsimp only
    split
    · next h => rw [separator h]
    · split
      · next h => rw [equals (.inl (beq_iff_eq.mp h))]
      · split
        · next h => rw [opening (by simp only [isBracket, h, Bool.true_or])]
        · split
          · next h =>
              have hbracket : isBracket c = true := by
                simp only [isBracket, Bool.or_assoc] at h ⊢
                simp only [h, Bool.or_true]
              rw [closing hbracket]
          · split
            · next h => rw [quote h]
            · rw [other]

/-- A quote is read as one. -/
theorem step_quote (h : Text.isQuote c = true) :
    scanner.step c = { scanner.readQuote c with last := some c } := by
  rw [Text.isQuote, Bool.or_eq_true, beq_iff_eq, beq_iff_eq] at h
  rcases h with rfl | rfl <;> simp [step, meaning, Text.isQuote]

theorem step_opening (h : c = '(' ∨ c = '[' ∨ c = '\x7b') :
    scanner.step c = { scanner.readOpening c with last := some c } := by
  rcases h with rfl | rfl | rfl <;> simp [step, meaning]

theorem step_closing (h : c = ')' ∨ c = ']' ∨ c = '\x7d') :
    scanner.step c = { scanner.readClosing c with last := some c } := by
  rcases h with rfl | rfl | rfl <;> simp [step, meaning]

/-- A character that is added to the value is collected. -/
theorem collects_of_step (h : scanner.step c
      = { scanner.pushValue c with last := some (meaning scanner.colons c) }) :
    scanner.Collects [c] (scanner.step c) := by
  rw [h]
  exact ⟨rfl, rfl, rfl, rfl, rfl, rfl⟩

/-- The states of a scanner that is inside an enclosure. -/
def Inside (scanner : Scanner) : Enclosure → Prop
  | .none => scanner.state = .value
  | .parentheses => scanner.state = .expression
  | .brackets => scanner.state = .array ∨ scanner.state = .object

theorem Collects.inside (h : before.Collects text after) (hinside : before.Inside around) :
    after.Inside around := by
  have hstate : after.state = before.state := by rw [state, state, h.states]
  cases around <;> simpa only [Inside, hstate] using hinside

/-- Inside a bracket or a brace, a character is read as in the other one. -/
theorem step_brackets (h : scanner.state = .array ∨ scanner.state = .object)
    (hc : Enclosure.brackets.Plain c) :
    scanner.step c = { scanner.pushValue c with last := some (meaning scanner.colons c) } := by
  obtain ⟨hquote, hbracket⟩ := hc
  rcases h with hstate | hstate <;> apply step_eq <;>
    simp [readSeparator, readEquals, push, hstate, hquote, hbracket, ScanState.isNested,
      ScanState.isNaming]

/-- **A character that stands for itself is collected.** -/
theorem collects_plain (h : scanner.Inside around) (hc : around.Plain c) :
    scanner.Collects [c] (scanner.step c) := by
  refine collects_of_step ?_
  cases around with
  | none =>
      obtain ⟨hseparator, hquote, hbracket⟩ := hc
      have hstate : scanner.state = .value := h
      apply step_eq <;>
        simp [readEquals, push, hstate, hseparator, hquote, hbracket, ScanState.isNaming]
  | parentheses =>
      obtain ⟨hquote, hopening, hclosing⟩ := hc
      have hstate : scanner.state = .expression := h
      apply step_eq <;>
        simp [readSeparator, readEquals, readOpening, readClosing, push, hstate, hquote, hopening,
          hclosing, ScanState.isNested, ScanState.opened, ScanState.isClosedBy, ScanState.isNaming]
  | brackets => exact step_brackets h hc

/-- What is collected between an entered and a left state is collected in all. -/
theorem Collects.enclose {opened : Scanner} {group : ScanState} {opening closing : Char}
    {last : Option Char} (h : opened.Collects text middle)
    (hcolons : opened.colons = scanner.colons)
    (hstates : opened.states = group :: scanner.states) (hname : opened.name = scanner.name)
    (hvalue : opened.value = scanner.value ++ [opening])
    (hunescaped : opened.unescaped = scanner.unescaped)
    (hattributes : opened.attributes = scanner.attributes) :
    scanner.Collects (opening :: (text ++ [closing]))
      { middle.leave.pushValue closing with last } where
  colons := h.colons.trans hcolons
  states := by
    show middle.states.tail = scanner.states
    rw [h.states, hstates, List.tail_cons]
  name := h.name.trans hname
  value := by
    show middle.value ++ [closing] = _
    rw [h.value, hvalue]
    simp
  unescaped := h.unescaped.trans hunescaped
  attributes := h.attributes.trans hattributes

/-! ## Literals -/

/-- In a string literal, every character but its quote is collected. -/
theorem step_string (h : scanner.state = .string) (hc : c ≠ scanner.quote) :
    scanner.step c = { scanner.pushValue c with last := some (meaning scanner.colons c) } := by
  apply step_eq <;>
    simp [readSeparator, readEquals, readOpening, readClosing, readQuote, push, h, hc,
      ScanState.isNested, ScanState.opened, ScanState.isClosedBy, ScanState.isNaming]

theorem collects_body (h : scanner.state = .string) (hbody : scanner.quote ∉ text) :
    scanner.Collects text (scanner.feed text) ∧ (scanner.feed text).quote = scanner.quote := by
  induction text generalizing scanner with
  | nil => exact ⟨.refl scanner, rfl⟩
  | cons c text ih =>
      have hc : c ≠ scanner.quote := fun hc => hbody (hc ▸ List.mem_cons_self)
      have hrest : scanner.quote ∉ text := fun hrest => hbody (List.mem_cons_of_mem _ hrest)
      have hstep := step_string h hc
      have hquote : (scanner.step c).quote = scanner.quote := by rw [hstep]; rfl
      have hstate : (scanner.step c).state = .string := by rw [hstep]; exact h
      obtain ⟨hcollects, hsame⟩ := ih hstate (by rwa [hquote])
      exact ⟨(collects_of_step hstep).trans hcollects, hsame.trans hquote⟩

/-- A quote in a value opens a string literal. -/
theorem step_openingQuote (h : scanner.Inside around) (hquote : Text.isQuote quote = true) :
    scanner.step quote
      = { { scanner.enter .string with quote }.pushValue quote with last := some quote } := by
  have hread : scanner.readQuote quote = { scanner.enter .string with quote }.pushValue quote := by
    cases around with
    | none => rw [readQuote, show scanner.state = .value from h]
    | parentheses => rw [readQuote, show scanner.state = .expression from h]
    | brackets => rcases h with h | h <;> rw [readQuote, h]
  rw [step_quote hquote, hread]

/-- **A string literal is collected**, whatever its body holds. -/
theorem collects_literal (h : scanner.Inside around) (hquote : Text.isQuote quote = true)
    (hbody : quote ∉ text) :
    scanner.Collects (quote :: (text ++ [quote])) (scanner.feed (quote :: (text ++ [quote]))) := by
  have hopen := step_openingQuote h hquote
  have hstate : (scanner.step quote).state = .string := by rw [hopen]; rfl
  have hsame : (scanner.step quote).quote = quote := by rw [hopen]; rfl
  have hkeep : (scanner.step quote).quote ∉ text := by rwa [hsame]
  obtain ⟨hcollects, hkept⟩ := collects_body hstate hkeep
  generalize hmiddle : (scanner.step quote).feed text = middle at hcollects hkept
  -- the closing quote leaves the literal that the opening one entered
  have hinside : middle.state = .string := by
    rw [state, hcollects.states]
    exact hstate
  have hclose : middle.step quote = { middle.leave.pushValue quote with last := some quote } := by
    rw [step_quote hquote, readQuote, hinside, hkept, hsame]
    simp
  rw [feed_cons, feed_append, hmiddle, feed_cons, hclose]
  rw [hopen] at hcollects
  exact hcollects.enclose rfl rfl rfl rfl rfl rfl

/-! ## Groups -/

/-- **A group is collected** when what is in it is: the bracket that closes it leaves the state
    that the opening one entered. -/
theorem collects_group {group : ScanState} {opening closing : Char}
    (hopening : opening = '(' ∨ opening = '[' ∨ opening = '\x7b')
    (hclosing : closing = ')' ∨ closing = ']' ∨ closing = '\x7d')
    (hstate : scanner.state.isNaming = false) (hgroup : group.isNaming = false)
    (hopened : scanner.state.opened opening = some group)
    (hclosed : group.isClosedBy closing = true)
    (hinner : ∀ inner : Scanner, inner.state = group → inner.Collects text (inner.feed text)) :
    scanner.Collects (opening :: (text ++ [closing]))
      (scanner.feed (opening :: (text ++ [closing]))) := by
  have hopen : scanner.step opening
      = { (scanner.enter group).pushValue opening with last := some opening } := by
    rw [step_opening hopening, readOpening]
    simp only [hopened, push, hstate]
    rfl
  have hentered : (scanner.step opening).state = group := by rw [hopen]; rfl
  have hcollects := hinner _ hentered
  generalize hmiddle : (scanner.step opening).feed text = middle at hcollects
  have hinside : middle.state = group := by
    rw [state, hcollects.states]
    exact hentered
  have hclose : middle.step closing
      = { middle.leave.pushValue closing with last := some closing } := by
    rw [step_closing hclosing, readClosing]
    simp only [hinside, hclosed, push, hgroup]
    rfl
  rw [feed_cons, feed_append, hmiddle, feed_cons, hclose]
  rw [hopen] at hcollects
  exact hcollects.enclose rfl rfl rfl rfl rfl rfl

/-- A parenthesis opens a group, except inside a bracket or a brace. -/
theorem Inside.opened_parenthesis (h : scanner.Inside around) (hne : around ≠ .brackets) :
    scanner.state.opened '(' = some .expression ∧ scanner.state.isNaming = false := by
  cases around with
  | none => rw [show scanner.state = .value from h]; exact ⟨rfl, rfl⟩
  | parentheses => rw [show scanner.state = .expression from h]; exact ⟨rfl, rfl⟩
  | brackets => exact absurd rfl hne

/-! ## Texts -/

/-- Collecting a text and then another one. -/
theorem Collects.feed_append (h : scanner.Collects text (scanner.feed text))
    (hmore : (scanner.feed text).Collects more ((scanner.feed text).feed more)) :
    scanner.Collects (text ++ more) (scanner.feed (text ++ more)) := by
  rw [Scanner.feed_append]
  exact h.trans hmore

end Scanner

open Scanner in
/-- **A well-nested text is collected.** -/
theorem WellNested.collects {around : Enclosure} {text : List Char} (h : WellNested around text) :
    ∀ {scanner : Scanner}, scanner.Inside around → scanner.Collects text (scanner.feed text) := by
  induction h with
  | nil => exact fun _ => .refl _
  | char plain after ih =>
      intro scanner hinside
      have hstep := collects_plain hinside plain
      exact Collects.feed_append hstep (ih (hstep.inside hinside))
  | literal isQuote unquoted after ih =>
      intro scanner hinside
      have hliteral := collects_literal hinside isQuote unquoted
      have hall := hliteral.feed_append (ih (hliteral.inside hinside))
      simpa using hall
  | group outside within after ihwithin ih =>
      intro scanner hinside
      obtain ⟨hopened, hstate⟩ := hinside.opened_parenthesis outside
      have hgroup := collects_group (.inl rfl) (.inl rfl) hstate rfl hopened rfl
        fun inner hinner => ihwithin hinner
      have hall := hgroup.feed_append (ih (hgroup.inside hinside))
      simpa using hall
  | array within after ihwithin ih =>
      intro scanner hinside
      have hstate : scanner.state = .value := hinside
      have hgroup : scanner.Collects _ _ := collects_group (.inr (.inl rfl)) (.inr (.inl rfl))
        (hstate ▸ rfl) rfl (hstate ▸ rfl : scanner.state.opened '[' = some .array) rfl
        fun inner hinner => ihwithin (.inl hinner)
      have hall := hgroup.feed_append (ih (hgroup.inside hinside))
      simpa using hall
  | object within after ihwithin ih =>
      intro scanner hinside
      have hstate : scanner.state = .value := hinside
      have hgroup : scanner.Collects _ _ := collects_group (.inr (.inr rfl)) (.inr (.inr rfl))
        (hstate ▸ rfl) rfl (hstate ▸ rfl : scanner.state.opened '\x7b' = some .object) rfl
        fun inner hinner => ihwithin (.inr hinner)
      have hall := hgroup.feed_append (ih (hgroup.inside hinside))
      simpa using hall

end Stencil.Attribute
