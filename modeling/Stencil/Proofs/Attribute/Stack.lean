import Stencil.Proofs.Attribute.Literals

/-! # The stack of a scanner — what may be open inside of what

    A scanner is used one stroke at a time: a character is read, or the list is
    closed, and reading may go on after that.  A stroke either ends the
    attribute, which clears the stack (`take_of_flushes`), or it goes on, and then
    it opens one state inside the innermost one, closes the innermost one, or
    leaves the stack alone (`step_goesOn`, `Moves`).

    Few states may be open inside of another (`ScanState.holds`), so few stacks
    come about: the name, with a quoted part of it or not; or a value, in it
    parentheses to any depth or one bracket or one brace, and on top of all a
    literal or none (`Shaped`).  Every stroke keeps this (`Shaped.take`), and each
    of these stacks does come about (`exists_strokes`). -/

namespace Stencil.Attribute

/-- What is done with a scanner: a character is read, or the list is closed. -/
inductive Stroke where
  | char (c : Char)
  | close
deriving Repr, DecidableEq

/-- Whether a state may be opened inside another one. -/
def ScanState.holds : ScanState → ScanState → Bool
  | name, quotedName | name, value => true
  | value, expression | value, array | value, object | value, string => true
  | expression, expression | expression, string => true
  | array, string | object, string => true
  | _, _ => false

/-- How a stack changes when the attribute goes on. -/
inductive Moves (states : List ScanState) : List ScanState → Prop where
  | stay : Moves states states
  | enter {inner : ScanState} (held : (states.headD .name).holds inner = true) :
      Moves states (inner :: states)
  /-- Neither the name nor the value is closed. -/
  | leave {inner : ScanState} {outer : List ScanState} (open_ : states = inner :: outer)
      (inName : inner ≠ .name) (inValue : inner ≠ .value) : Moves states outer

variable {states later : List ScanState}

/-- A stroke that goes on keeps the stack, puts a state on top, or takes one off that is neither
    the name nor the value. -/
theorem Moves.kept_or_moved (h : Moves states later) :
    later = states ∨ (∃ entered, later = entered :: states)
      ∨ ∃ popped, states = popped :: later ∧ popped ≠ .name ∧ popped ≠ .value := by
  cases h with
  | stay => exact .inl rfl
  | enter => exact .inr (.inl ⟨_, rfl⟩)
  | leave open_ hname hvalue => exact .inr (.inr ⟨_, open_, hname, hvalue⟩)

theorem Moves.mem_value (h : Moves states later) (hmem : .value ∈ states) : .value ∈ later := by
  rcases h.kept_or_moved with rfl | ⟨entered, rfl⟩ | ⟨popped, rfl, -, hvalue⟩
  · exact hmem
  · exact List.mem_cons_of_mem _ hmem
  · exact (List.mem_cons.mp hmem).resolve_left (Ne.symm hvalue)

namespace Scanner

variable {scanner next : Scanner} {c : Char} {colons : Bool} {strokes : List Stroke}

/-- A scanner after a stroke. -/
def take (scanner : Scanner) : Stroke → Scanner
  | .char c => scanner.step c
  | .close => scanner.flush

/-- A new scanner after some strokes. -/
def after (colons : Bool) (strokes : List Stroke) : Scanner := strokes.foldl take { colons }

/-- Whether a stroke ends the attribute. -/
def flushes (scanner : Scanner) : Stroke → Bool
  | .char c => isSeparator c && !scanner.state.isNested
  | .close => true

theorem after_concat (colons : Bool) (strokes : List Stroke) (stroke : Stroke) :
    after colons (strokes ++ [stroke]) = (after colons strokes).take stroke :=
  List.foldl_concat take { colons } stroke strokes

/-- The attribute was ended, and nothing is left of it but, perhaps, its last character. -/
def Flushed (scanner next : Scanner) : Prop := ∃ last, next = { scanner.flush with last }

theorem take_of_flushes {stroke : Stroke} (h : scanner.flushes stroke = true) :
    scanner.Flushed (scanner.take stroke) := by
  cases stroke with
  | close => exact ⟨scanner.last, rfl⟩
  | char c =>
      simp only [flushes, Bool.and_eq_true, Bool.not_eq_true'] at h
      exact ⟨some c, step_separator h.2 h.1⟩

/-! ## Characters that go on -/

/-- What a character does that does not end the attribute. -/
structure GoesOn (scanner next : Scanner) : Prop where
  states : Moves scanner.states next.states
  name : next.name = scanner.name
    ∨ ∃ c, Text.isQuote c = false ∧ next.name = scanner.name ++ [c]
  attributes : next.attributes = scanner.attributes

/-- However the stack has moved, the character is added to what is collected. -/
theorem goesOn_push (base : Scanner) (hstates : Moves scanner.states base.states)
    (hname : base.name = scanner.name) (hattributes : base.attributes = scanner.attributes)
    (state : ScanState) (hc : Text.isQuote c = false) : scanner.GoesOn (base.push state c) := by
  unfold push
  split
  · exact ⟨hstates, .inr ⟨c, hc, congrArg (· ++ [c]) hname⟩, hattributes⟩
  · exact ⟨hstates, .inl hname, hattributes⟩

theorem goesOn_pushValue (base : Scanner) (hstates : Moves scanner.states base.states)
    (hname : base.name = scanner.name) (hattributes : base.attributes = scanner.attributes)
    (c : Char) : scanner.GoesOn (base.pushValue c) :=
  ⟨hstates, .inl hname, hattributes⟩

/-- A state that is open inside the name or the value may be left. -/
theorem moves_leave {inner : ScanState} (h : scanner.state = inner) (hname : inner ≠ .name)
    (hvalue : inner ≠ .value) : Moves scanner.states scanner.leave.states := by
  cases hstates : scanner.states with
  | nil =>
      rw [state, hstates] at h
      exact absurd h.symm hname
  | cons first outer =>
      rw [state, hstates] at h
      obtain rfl : first = inner := h
      show Moves _ scanner.states.tail
      rw [hstates]
      exact .leave rfl hname hvalue

theorem readEquals_goesOn {written : Char} (h : Text.isQuote written = false) :
    scanner.GoesOn (scanner.readEquals written) := by
  unfold readEquals
  split
  · exact ⟨.stay, .inr ⟨written, h, rfl⟩, rfl⟩
  · next hstate =>
      have hheld : scanner.state.holds .value = true := by rw [hstate]; rfl
      exact ⟨.enter hheld, .inl rfl, rfl⟩
  · exact goesOn_pushValue scanner .stay rfl rfl written

theorem readOpening_goesOn (h : Text.isQuote c = false) :
    scanner.GoesOn (scanner.readOpening c) := by
  unfold readOpening
  dsimp only
  split
  · next group hgroup =>
      -- a bracket opens the same states that may be opened inside of the one it stands in
      have hheld : scanner.state.holds group = true := by
        generalize scanner.state = state at hgroup
        cases state <;> simp only [ScanState.opened, reduceCtorEq] at hgroup
        · split at hgroup
          · cases hgroup
            rfl
          · split at hgroup
            · cases hgroup
              rfl
            · split at hgroup <;> cases hgroup
              rfl
        · split at hgroup <;> cases hgroup
          rfl
      exact goesOn_push (scanner.enter group) (.enter hheld) rfl rfl _ h
  · exact goesOn_push scanner .stay rfl rfl _ h

theorem readClosing_goesOn (h : Text.isQuote c = false) :
    scanner.GoesOn (scanner.readClosing c) := by
  unfold readClosing
  dsimp only
  split
  · next hclosed =>
      have hinside : scanner.state ≠ .name ∧ scanner.state ≠ .value := by
        constructor <;> intro hstate <;> rw [hstate] at hclosed <;> cases hclosed
      exact goesOn_push scanner.leave (moves_leave rfl hinside.1 hinside.2) rfl rfl _ h
  · exact goesOn_push scanner .stay rfl rfl _ h

theorem readQuote_goesOn (c : Char) : scanner.GoesOn (scanner.readQuote c) := by
  have henter : ∀ {inner : ScanState}, scanner.state.holds inner = true →
      Moves scanner.states (inner :: scanner.states) := fun hheld => .enter hheld
  unfold readQuote
  split
  · next hstate => exact ⟨henter (by rw [hstate]; rfl), .inl rfl, rfl⟩
  · next hstate => exact ⟨moves_leave hstate nofun nofun, .inl rfl, rfl⟩
  · next hstate =>
      split
      · exact goesOn_pushValue scanner.leave (moves_leave hstate nofun nofun) rfl rfl c
      · exact goesOn_pushValue scanner .stay rfl rfl c
  · next hname hquoted hstring =>
      refine goesOn_pushValue { scanner.enter .string with quote := c } (henter ?_)
        rfl rfl c
      cases hstate : scanner.state <;> simp_all [ScanState.holds]

/-- What a colon is read as is no separator and no quote either. -/
theorem meaning_eq_or (colons : Bool) (c : Char) :
    meaning colons c = c ∨ c = ':' ∧ meaning colons c = '=' := by
  unfold meaning
  split
  · next h => exact .inr ⟨by simpa using (Bool.and_eq_true_iff.mp h).2, rfl⟩
  · exact .inl rfl

theorem isSeparator_meaning (colons : Bool) (c : Char) :
    isSeparator (meaning colons c) = isSeparator c := by
  rcases meaning_eq_or colons c with h | ⟨rfl, h⟩ <;> rw [h]
  rfl

theorem isQuote_meaning (colons : Bool) (c : Char) :
    Text.isQuote (meaning colons c) = Text.isQuote c := by
  rcases meaning_eq_or colons c with h | ⟨rfl, h⟩ <;> rw [h]
  rfl

/-- **A character that does not end the attribute** moves the stack by one state at most, adds no
    quote to the name and records nothing. -/
theorem step_goesOn (h : scanner.flushes (.char c) = false) : scanner.GoesOn (scanner.step c) := by
  have hremembered : ∀ {next : Scanner} {last : Option Char},
      scanner.GoesOn next → scanner.GoesOn { next with last } := fun hnext => { hnext with }
  -- a quote is never collected for a name; whatever else is, is no quote
  by_cases hquote : Text.isQuote c = true
  · rw [step_quote hquote]
    exact hremembered (readQuote_goesOn c)
  · rw [Bool.not_eq_true] at hquote
    have hmeant := (isQuote_meaning scanner.colons c).trans hquote
    unfold step
    dsimp only
    refine hremembered ?_
    split
    · next hseparator =>
        have hc : isSeparator c = true := isSeparator_meaning scanner.colons c ▸ hseparator
        rw [flushes, hc, Bool.true_and, Bool.not_eq_false'] at h
        rw [readSeparator, if_pos h]
        exact goesOn_pushValue scanner .stay rfl rfl _
    · split
      · exact readEquals_goesOn hquote
      · split
        · exact readOpening_goesOn hmeant
        · split
          · exact readClosing_goesOn hmeant
          · rw [if_neg (by simp [hmeant])]
            exact goesOn_push scanner .stay rfl rfl _ hmeant

theorem take_goesOn {stroke : Stroke} (h : scanner.flushes stroke = false) :
    scanner.GoesOn (scanner.take stroke) := by
  cases stroke with
  | close => exact nomatch h
  | char c => exact step_goesOn h

/-! ## The stacks that come about -/

/-- What may be open in a value: parentheses to any depth, or one bracket, or one brace. -/
inductive Groups : List ScanState → Prop where
  | parentheses (depth : Nat) : Groups (List.replicate depth .expression)
  | bracket : Groups [.array]
  | brace : Groups [.object]

/-- The stacks of a scanner, innermost state first. -/
inductive Shaped : List ScanState → Prop where
  | name : Shaped [.name]
  | quotedName : Shaped [.quotedName, .name]
  | value {groups : List ScanState} (inside : Groups groups) : Shaped (groups ++ [.value, .name])
  /-- A literal, in the value or in what is open in it. -/
  | literal {groups : List ScanState} (inside : Groups groups) :
      Shaped (.string :: (groups ++ [.value, .name]))

theorem Shaped.enter {inner : ScanState} (h : Shaped states)
    (held : (states.headD .name).holds inner = true) : Shaped (inner :: states) := by
  cases h with
  | name =>
      cases inner with
      | quotedName => exact .quotedName
      | value => exact .value (.parentheses 0)
      | _ => exact nomatch held
  | quotedName => cases inner <;> exact nomatch held
  | literal inside => cases inner <;> exact nomatch held
  | value inside =>
      cases inside with
      | parentheses depth =>
          cases depth with
          | zero =>
              cases inner with
              | expression => exact .value (.parentheses 1)
              | array => exact .value .bracket
              | object => exact .value .brace
              | string => exact .literal (.parentheses 0)
              | _ => exact nomatch held
          | succ depth =>
              cases inner with
              | expression => exact .value (.parentheses (depth + 2))
              | string => exact .literal (.parentheses (depth + 1))
              | _ => exact nomatch held
      | bracket =>
          cases inner with
          | string => exact .literal .bracket
          | _ => exact nomatch held
      | brace =>
          cases inner with
          | string => exact .literal .brace
          | _ => exact nomatch held

theorem Shaped.leave {inner : ScanState} {outer : List ScanState} (h : Shaped (inner :: outer))
    (hname : inner ≠ .name) (hvalue : inner ≠ .value) : Shaped outer := by
  generalize hstates : inner :: outer = states at h
  cases h with
  | name =>
      cases hstates
      exact absurd rfl hname
  | quotedName =>
      cases hstates
      exact .name
  | literal inside =>
      cases hstates
      exact .value inside
  | value inside =>
      cases inside with
      | parentheses depth =>
          cases depth with
          | zero =>
              cases hstates
              exact absurd rfl hvalue
          | succ depth =>
              cases hstates
              exact .value (.parentheses depth)
      | bracket =>
          cases hstates
          exact .value (.parentheses 0)
      | brace =>
          cases hstates
          exact .value (.parentheses 0)

theorem Shaped.moves (h : Shaped states) (hmoves : Moves states later) : Shaped later := by
  cases hmoves with
  | stay => exact h
  | enter held => exact h.enter held
  | leave open_ hname hvalue => exact (open_ ▸ h).leave hname hvalue

/-- **Every stroke keeps the shape of the stack.** -/
theorem Shaped.take (h : Shaped scanner.states) (stroke : Stroke) :
    Shaped (scanner.take stroke).states := by
  cases hflushes : scanner.flushes stroke with
  | true =>
      obtain ⟨last, htake⟩ := take_of_flushes hflushes
      rw [htake]
      exact .name
  | false => exact h.moves (take_goesOn hflushes).states

theorem shaped_after (colons : Bool) (strokes : List Stroke) :
    Shaped (after colons strokes).states := by
  induction strokes using List.reverseRecOn with
  | nil => exact .name
  | append_singleton strokes stroke ih =>
      rw [after_concat]
      exact ih.take stroke

/-! ## The stacks that there are -/

theorem states_opening {group : ScanState} (hc : c = '(' ∨ c = '[' ∨ c = '\x7b')
    (h : scanner.state.opened c = some group) :
    (scanner.step c).states = group :: scanner.states := by
  rw [step_opening hc, readOpening]
  simp only [h]
  unfold push
  split <;> rfl

/-- Where no literal is open in a value, one can be opened. -/
theorem Groups.states_quote {groups : List ScanState} (h : Groups groups)
    (hstates : scanner.states = groups ++ [.value, .name]) :
    (scanner.step '"').states = .string :: scanner.states := by
  have hinside : ∃ around, scanner.Inside around := by
    cases h with
    | parentheses depth =>
        cases depth with
        | zero => exact ⟨.none, by rw [Inside, state, hstates]; rfl⟩
        | succ depth => exact ⟨.parentheses, by rw [Inside, state, hstates]; rfl⟩
    | bracket => exact ⟨.brackets, .inl (by rw [state, hstates]; rfl)⟩
    | brace => exact ⟨.brackets, .inr (by rw [state, hstates]; rfl)⟩
  obtain ⟨around, hinside⟩ := hinside
  rw [step_openingQuote hinside rfl]
  rfl

theorem Groups.exists_strokes {groups : List ScanState} (h : Groups groups) (colons : Bool) :
    ∃ strokes, (after colons strokes).states = groups ++ [.value, .name] := by
  cases h with
  | parentheses depth =>
      induction depth with
      | zero => exact ⟨[.char '='], by cases colons <;> rfl⟩
      | succ depth ih =>
          obtain ⟨strokes, hstates⟩ := ih
          refine ⟨strokes ++ [.char '('], ?_⟩
          have hopened : (after colons strokes).state.opened '(' = some .expression := by
            rw [state, hstates]
            cases depth <;> rfl
          rw [after_concat, Scanner.take, states_opening (.inl rfl) hopened, hstates]
          rfl
  | bracket => exact ⟨[.char '=', .char '['], by cases colons <;> rfl⟩
  | brace => exact ⟨[.char '=', .char '\x7b'], by cases colons <;> rfl⟩

/-- Each of these stacks comes about. -/
theorem Shaped.exists_strokes (h : Shaped states) (colons : Bool) :
    ∃ strokes, (after colons strokes).states = states := by
  cases h with
  | name => exact ⟨[], rfl⟩
  | quotedName => exact ⟨[.char '"'], by cases colons <;> rfl⟩
  | value inside => exact inside.exists_strokes colons
  | literal inside =>
      obtain ⟨strokes, hstates⟩ := inside.exists_strokes colons
      refine ⟨strokes ++ [.char '"'], ?_⟩
      rw [after_concat, Scanner.take, inside.states_quote hstates, hstates]

/-- What may be open in a value is no literal and no part of a name, and neither is the value. -/
theorem Groups.not_innermost {groups : List ScanState} (h : Groups groups) :
    ∀ inner ∈ groups ++ [ScanState.value, .name], inner ≠ .string ∧ inner ≠ .quotedName := by
  intro inner hinner
  rcases List.mem_append.mp hinner with hgroup | hbelow
  · cases h with
    | parentheses depth =>
        rw [List.eq_of_mem_replicate hgroup]
        exact ⟨nofun, nofun⟩
    | bracket =>
        rw [List.mem_singleton.mp hgroup]
        exact ⟨nofun, nofun⟩
    | brace =>
        rw [List.mem_singleton.mp hgroup]
        exact ⟨nofun, nofun⟩
  · simp only [List.mem_cons, List.not_mem_nil, or_false] at hbelow
    rcases hbelow with rfl | rfl <;> exact ⟨nofun, nofun⟩

/-- A literal or a quoted part of a name is the innermost state. -/
theorem Shaped.not_mem_tail (h : Shaped states) : ∀ inner ∈ states.tail,
    inner ≠ .string ∧ inner ≠ .quotedName := by
  cases h with
  | name => exact nofun
  | quotedName =>
      intro inner hinner
      rw [List.mem_singleton.mp hinner]
      exact ⟨nofun, nofun⟩
  | value inside =>
      exact fun inner hinner => inside.not_innermost inner (List.mem_of_mem_tail hinner)
  | literal inside => exact inside.not_innermost

theorem Shaped.ne_nil (h : Shaped states) : states ≠ [] := by
  cases h <;> simp

/-- **The stack of a scanner**, whatever was read and wherever the list was closed: the stacks that
    come about are those that are `Shaped`.  So the stack is never empty, and a literal or a quoted
    part of a name is never below another state.  A stroke that does not end the attribute keeps
    the stack, puts a state on top or takes one off, which is neither the name nor the value; so
    only the end of the attribute leads out of the value. -/
theorem stack_shaped (colons : Bool) :
    (∀ states, (∃ strokes, (after colons strokes).states = states) ↔ Shaped states)
      ∧ ∀ strokes, (after colons strokes).states ≠ []
        ∧ (∀ inner ∈ (after colons strokes).states.tail, inner ≠ .string ∧ inner ≠ .quotedName)
        ∧ ∀ stroke, ((after colons strokes).Flushed ((after colons strokes).take stroke)
              ∨ ((after colons strokes).take stroke).states = (after colons strokes).states
              ∨ (∃ entered, ((after colons strokes).take stroke).states
                = entered :: (after colons strokes).states)
              ∨ ∃ popped, (after colons strokes).states
                  = popped :: ((after colons strokes).take stroke).states
                ∧ popped ≠ .name ∧ popped ≠ .value)
          ∧ (.value ∈ (after colons strokes).states →
            .value ∉ ((after colons strokes).take stroke).states →
            (after colons strokes).Flushed ((after colons strokes).take stroke)) := by
  refine ⟨fun states => ⟨?_, fun h => h.exists_strokes colons⟩, fun strokes => ?_⟩
  · rintro ⟨strokes, rfl⟩
    exact shaped_after colons strokes
  · have hshaped := shaped_after colons strokes
    refine ⟨hshaped.ne_nil, hshaped.not_mem_tail, fun stroke => ?_⟩
    cases hflushes : (after colons strokes).flushes stroke with
    | true =>
        have hflushed := take_of_flushes hflushes
        exact ⟨.inl hflushed, fun _ _ => hflushed⟩
    | false =>
        have hmoves := (take_goesOn hflushes).states
        exact ⟨.inr hmoves.kept_or_moved, fun hmem hnot => absurd (hmoves.mem_value hmem) hnot⟩

end Scanner

end Stencil.Attribute
