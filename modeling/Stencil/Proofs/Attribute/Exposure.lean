import Stencil.Proofs.Attribute.Nesting

/-! # Exposure — a value is recorded exactly when nothing in it is exposed

    At an exposed separator the attribute ends, and what stands before it is
    recorded.  What stands behind it is read as a list of its own, and may record
    the same name again, so it is not enough to look at the first attribute.

    A value starts at an equals sign that is not part of it.  So what can be
    recorded from the rest of a text has fewer equals signs than the rest, and
    neither trimming nor an interpolation adds any (`countP_interpolate`): no
    value recorded behind the cut is the whole one (`Scanner.Short.step`,
    `Scanner.Misses.feed`).  The first part is not the whole one because the end
    of the group around the separator is missing.

    So a value is recorded as it was written exactly when it exposes no separator
    (`recorded_iff_not_exposes`), and a bracket in brackets does expose one
    (`bracketInBrackets_exposed`). -/

namespace Stencil.Attribute

/-! ## Counting characters -/

section Counting

variable {p : Char → Bool} {text expression after : List Char}

theorem countP_trim (h : ∀ c, Text.isBlank c = true → p c = false) (text : List Char) :
    (Text.trim text).countP p = text.countP p := by
  have hdrop : ∀ text : List Char, (text.dropWhile Text.isBlank).countP p = text.countP p := by
    intro text
    have hblank : (text.takeWhile Text.isBlank).countP p = 0 :=
      List.countP_eq_zero.mpr fun c hc => by simp [h c (List.mem_takeWhile_imp hc)]
    conv_rhs => rw [← List.takeWhile_append_dropWhile (p := Text.isBlank) (l := text)]
    rw [List.countP_append, hblank, Nat.zero_add]
  rw [Text.trim, Text.dropAround, Text.dropEndWhile, List.countP_reverse, hdrop,
    List.countP_reverse, hdrop]

theorem interpolation?_eq_some (h : interpolation? text = some (expression, after)) :
    text = '#' :: '\x7b' :: (expression ++ '\x7d' :: after) := by
  unfold interpolation? at h
  split at h
  · next inner =>
      unfold braceExpression at h
      split at h
      · next c front d back htake hdrop =>
          obtain ⟨rfl, rfl⟩ := Prod.mk.inj (Option.some.inj h)
          have hbrace := List.head?_dropWhile_not (· != '\x7d') inner
          rw [hdrop] at hbrace
          obtain rfl : d = '\x7d' := by simpa using hbrace
          rw [← htake, ← hdrop, List.takeWhile_append_dropWhile]
      · exact nomatch h
  · exact nomatch h

/-- The characters that an interpolation adds or takes away. -/
def spliceMarks : List Char := ['"', '\'', '#', '\x7b', '\x7d', '+', '(', ')', ' ', '\\']

variable (hmarks : ∀ c ∈ spliceMarks, p c = false)

include hmarks in
theorem countP_spliceWith {quote : Char} (hquote : p quote = false) (fuel : Nat)
    (text : List Char) : (spliceWith quote fuel text).countP p = text.countP p := by
  obtain ⟨-, -, hhash, hopen, hclose, hplus, hleft, hright, hspace, hslash⟩ :
      p '"' = false ∧ p '\'' = false ∧ p '#' = false ∧ p '\x7b' = false ∧ p '\x7d' = false
        ∧ p '+' = false ∧ p '(' = false ∧ p ')' = false ∧ p ' ' = false ∧ p '\\' = false := by
    simpa [spliceMarks] using hmarks
  induction fuel generalizing text with
  | zero => rfl
  | succ fuel ih =>
      rcases text with - | ⟨c, rest⟩
      · rfl
      · unfold spliceWith
        split
        · next expression after h =>
            simp [interpolation?_eq_some h, ih, hquote, hhash, hopen, hclose,
              hplus, hleft, hright, hspace]
        · split
          · split
            · next expression after h =>
                obtain rfl : c = '\\' := by simp_all
                simp [interpolation?_eq_some h, ih, hslash, hhash, hopen, hclose]
            · rw [List.countP_cons, List.countP_cons, ih]
          · rw [List.countP_cons, List.countP_cons, ih]

include hmarks in
/-- **Only quotes, braces, parentheses and the like change in number** when the interpolations of
    a value are expanded. -/
theorem countP_interpolate (value : List Char) :
    (interpolate value).countP p = value.countP p := by
  have hwith : ∀ (fuel : Nat) (text : List Char),
      (interpolateWith fuel text).countP p = text.countP p := by
    intro fuel
    induction fuel with
    | zero => exact fun _ => rfl
    | succ fuel ih =>
        rintro (- | ⟨c, rest⟩)
        · rfl
        · unfold interpolateWith
          split
          · next hc =>
              have hquote : p c = false := by
                refine hmarks c ?_
                rw [Text.isQuote, Bool.or_eq_true, beq_iff_eq, beq_iff_eq] at hc
                rcases hc with rfl | rfl <;> decide
              split
              · next body after hrest =>
                  rw [List.countP_append, splice, countP_spliceWith hmarks hquote, ih,
                    ← List.countP_append, List.cons_append, literalRest_append hrest]
              · rw [List.countP_cons, List.countP_cons, ih]
          · rw [List.countP_cons, List.countP_cons, ih]
  exact hwith value.length value

end Counting

/-! ## Reading on -/

namespace Scanner

variable {colons : Bool} {scanner : Scanner} {limit : Nat} {c : Char} {target text : List Char}

/-- The number of characters that are read as equals signs. -/
def weight (colons : Bool) (text : List Char) : Nat := text.countP (meaning colons · == '=')

theorem weight_cons (colons : Bool) (c : Char) (text : List Char) :
    weight colons (c :: text) = weight colons [c] + weight colons text :=
  @List.countP_append _ _ [c] text

theorem weight_append (colons : Bool) (text more : List Char) :
    weight colons (text ++ more) = weight colons text + weight colons more :=
  List.countP_append

/-- Trimming a text takes no equals sign away. -/
theorem weight_trim (colons : Bool) (text : List Char) :
    weight colons (Text.trim text) = weight colons text := by
  refine countP_trim (fun c hc => ?_) text
  rw [beq_eq_false_iff_ne]
  intro hequals
  have hc' : c = '=' ∨ c = ':' := by
    unfold meaning at hequals
    split at hequals
    · next h => exact .inr (by simpa using (Bool.and_eq_true_iff.mp h).2)
    · exact .inl hequals
  rcases hc' with rfl | rfl <;> exact absurd hc (by decide)

theorem weight_interpolate (colons : Bool) (text : List Char) :
    weight colons (interpolate text) = weight colons text := by
  have hnone : ∀ colons : Bool, spliceMarks.any (meaning colons · == '=') = false := by decide
  exact countP_interpolate
    (fun c hc => eq_false_of_ne_true (List.any_eq_false.mp (hnone colons) c hc)) text

/-- What a character is read as weighs what the character does. -/
theorem weight_meaning (colons : Bool) (c : Char) :
    weight colons [meaning colons c] = weight colons [c] := by
  have hmeaning : meaning colons (meaning colons c) = meaning colons c := by
    unfold meaning
    split
    · simp
    · rfl
  simp [weight, List.countP_cons, hmeaning]

/-- A scanner that has not opened a value. -/
def Fresh (scanner : Scanner) : Prop :=
  scanner.value = [] ∧ ∀ state ∈ scanner.states, state.isNaming = true

theorem fresh_flush (scanner : Scanner) : scanner.flush.Fresh :=
  ⟨rfl, by simp [flush, ScanState.isNaming]⟩

theorem Fresh.state (h : scanner.Fresh) : scanner.state = .name ∨ scanner.state = .quotedName := by
  obtain ⟨-, hstates⟩ := h
  have hnaming : scanner.state.isNaming = true := by
    unfold Scanner.state
    cases hlist : scanner.states with
    | nil => rfl
    | cons state states => exact hstates state (hlist ▸ List.mem_cons_self)
  cases hstate : scanner.state <;> simp_all [ScanState.isNaming]

/-- Outside of values, only an equals sign opens one. -/
theorem Fresh.step (h : scanner.Fresh) (c : Char) :
    (scanner.step c).Fresh
      ∨ (scanner.step c).value = [] ∧ weight scanner.colons [c] = 1 := by
  have hstate := h.state
  obtain ⟨hvalue, hnaming⟩ := h
  unfold Scanner.step
  dsimp only
  split
  · have hnested : scanner.state.isNested = false := by rcases hstate with h | h <;> rw [h] <;> rfl
    rw [readSeparator, if_neg (by simp [hnested])]
    exact .inl scanner.fresh_flush
  · split
    · next hequals =>
        rcases hstate with h | h
        · simp only [readEquals, h]
          exact .inr ⟨hvalue, by simpa [weight] using hequals⟩
        · simp only [readEquals, h]
          exact .inl ⟨hvalue, hnaming⟩
    · have hpush : ∀ c : Char, { scanner.push scanner.state c with last := some c }.Fresh := by
        intro c
        rcases hstate with h | h <;> rw [h] <;> exact ⟨hvalue, hnaming⟩
      refine .inl ?_
      split
      · have hopened : scanner.state.opened (meaning scanner.colons c) = none := by
          rcases hstate with h | h <;> rw [h] <;> rfl
        simp only [readOpening, hopened]
        exact hpush _
      · split
        · have hclosed : scanner.state.isClosedBy (meaning scanner.colons c) = false := by
            rcases hstate with h | h <;> rw [h] <;> rfl
          simp only [readClosing, hclosed]
          exact hpush _
        · split
          · rcases hstate with h | h
            · simp only [readQuote, h]
              exact ⟨hvalue, List.forall_mem_cons.mpr ⟨rfl, hnaming⟩⟩
            · simp only [readQuote, h]
              exact ⟨hvalue, fun state hmem => hnaming state (List.mem_of_mem_tail hmem)⟩
          · exact hpush _

/-- A scanner that has recorded nothing, and has added to its value no more than a character. -/
structure Adds (scanner : Scanner) (c : Char) (next : Scanner) : Prop where
  colons : next.colons = scanner.colons
  attributes : next.attributes = scanner.attributes
  weight_le : weight scanner.colons next.value
    ≤ weight scanner.colons scanner.value + weight scanner.colons [c]

/-- However a scanner has changed its states, it adds the character to what it collects. -/
theorem adds_push (base : Scanner) (hcolons : base.colons = scanner.colons)
    (hattributes : base.attributes = scanner.attributes) (hvalue : base.value = scanner.value)
    (state : ScanState) {d : Char} (hd : weight scanner.colons [d] = weight scanner.colons [c]) :
    scanner.Adds c (base.push state d) := by
  unfold push
  split
  · exact ⟨hcolons, hattributes, hvalue ▸ Nat.le_add_right _ _⟩
  · refine ⟨hcolons, hattributes, ?_⟩
    show weight scanner.colons (base.value ++ [d]) ≤ _
    rw [weight_append, hvalue, hd]

/-- A step records what has been read, or adds to it. -/
theorem step_flushes_or_adds (scanner : Scanner) (c : Char) :
    (∃ last, scanner.step c = { scanner.flush with last }) ∨ scanner.Adds c (scanner.step c) := by
  have hkept : scanner.Adds c scanner := ⟨rfl, rfl, Nat.le_add_right _ _⟩
  have hmeaning := weight_meaning scanner.colons c
  have hpush := fun state => adds_push scanner rfl rfl rfl state hmeaning
  unfold Scanner.step
  dsimp only
  split
  · unfold readSeparator
    split
    · exact .inr { hpush .value with }
    · exact .inl ⟨_, rfl⟩
  · refine .inr ?_
    split
    · unfold readEquals
      split
      · exact { hkept with }
      · exact { hkept with }
      · exact { adds_push scanner rfl rfl rfl .value rfl with }
    · split
      · unfold readOpening
        dsimp only
        split
        · next group _ =>
            exact { adds_push (scanner.enter group) rfl rfl rfl _ hmeaning with }
        · exact { hpush _ with }
      · split
        · unfold readClosing
          dsimp only
          split
          · exact { adds_push scanner.leave rfl rfl rfl _ hmeaning with }
          · exact { hpush _ with }
        · split
          · unfold readQuote
            split
            · exact { hkept with }
            · exact { hkept with }
            · split
              · exact { adds_push scanner.leave rfl rfl rfl .value hmeaning with }
              · exact { hpush .value with }
            · exact { adds_push
                { scanner.enter .string with quote := meaning scanner.colons c }
                rfl rfl rfl .value hmeaning with }
          · exact { hpush _ with }

/-! ## What is recorded behind a cut -/

/-- A scanner that can not collect a value of the given weight from a text. -/
structure Short (scanner : Scanner) (limit : Nat) (text : List Char) : Prop where
  bound : scanner.Fresh ∧ weight scanner.colons text ≤ limit
    ∨ weight scanner.colons scanner.value + weight scanner.colons text < limit

/-- A scanner that has not recorded a value. -/
def Misses (scanner : Scanner) (target : List Char) : Prop :=
  ∀ entry ∈ scanner.attributes.values, entry.value ≠ .text (String.ofList target)

theorem colons_step (scanner : Scanner) (c : Char) :
    (scanner.step c).colons = scanner.colons := by
  rcases scanner.step_flushes_or_adds c with ⟨last, hstep⟩ | hadds
  · rw [hstep]
    rfl
  · exact hadds.colons

/-- **The equals sign that opens a value is not in it**, so that what is left is too short. -/
theorem Short.step (h : scanner.Short limit (c :: text)) : (scanner.step c).Short limit text := by
  constructor
  have hcons := weight_cons scanner.colons c text
  rw [colons_step]
  rcases h.bound with ⟨hfresh, hle⟩ | hlt
  · rcases hfresh.step c with hnext | ⟨hvalue, hc⟩
    · exact .inl ⟨hnext, by omega⟩
    · refine .inr ?_
      rw [hvalue]
      show 0 + _ < limit
      omega
  · rcases scanner.step_flushes_or_adds c with ⟨last, hstep⟩ | hadds
    · refine .inl ⟨?_, by omega⟩
      rw [hstep]
      exact scanner.fresh_flush
    · have hle := hadds.weight_le
      exact .inr (by omega)

/-- What is recorded is too short. -/
theorem Misses.flush (h : scanner.Misses target)
    (hshort : scanner.Short (weight scanner.colons target) text) :
    scanner.flush.Misses target := by
  have hnew : (attributeOf (Text.trim scanner.name) (Text.trim scanner.value)
      scanner.unescaped).value ≠ .text (String.ofList target) := by
    unfold attributeOf
    dsimp only
    split
    · nofun
    · next hvisible =>
        intro hsame
        have htarget := String.ofList_injective (AttributeValue.text.inj hsame)
        have hweight : weight scanner.colons target = weight scanner.colons scanner.value := by
          rw [← htarget, weight_interpolate, weight_trim]
        rcases hshort.bound with ⟨hfresh, -⟩ | hlt
        · rw [hfresh.1] at hvisible
          exact hvisible rfl
        · omega
  intro entry hmem
  replace hmem : entry ∈ (if (Text.trim scanner.name).isEmpty then scanner.attributes
    else scanner.attributes.insert _ _).values := hmem
  split at hmem
  · exact h entry hmem
  · rcases OrderedMap.mem_values_insert hmem with rfl | hmem
    · exact hnew
    · exact h entry hmem

theorem Misses.step (h : scanner.Misses target)
    (hshort : scanner.Short (weight scanner.colons target) text) :
    (scanner.step c).Misses target := by
  rcases scanner.step_flushes_or_adds c with ⟨last, hstep⟩ | hadds
  · rw [hstep]
    exact h.flush hshort
  · rw [Misses, hadds.attributes]
    exact h

/-- **Behind a cut no value of the weight of the target is recorded.** -/
theorem Misses.feed (h : scanner.Misses target)
    (hshort : scanner.Short (weight scanner.colons target) text) :
    (scanner.feed text).flush.Misses target := by
  induction text generalizing scanner with
  | nil => exact h.flush hshort
  | cons c text ih =>
      rw [feed_cons]
      refine ih (h.step hshort) ?_
      rw [colons_step]
      exact hshort.step

end Scanner

namespace Nesting

open Scanner

variable {value : Nesting}

/-- What stands before a cut is less than the whole value. -/
theorem trim_front_ne {colons : Bool} {front back : List Char} {separator : Char}
    (hcut : Cut (valueOpened colons) [.name] value.write value.guarded front separator back)
    (hguarded : value.guarded = true) : Text.trim front ≠ Text.trim value.write := by
  intro hsame
  obtain ⟨c, hmem, hc⟩ := hcut.visible hguarded
  have hcount := congrArg (List.countP fun c => !Text.isBlank c) hsame
  rw [countP_trim (by simp), countP_trim (by simp), hcut.text_eq, List.countP_append,
    List.countP_cons] at hcount
  have hpos : 0 < back.countP fun c => !Text.isBlank c :=
    List.countP_pos_iff.mpr ⟨c, hmem, by simp [hc]⟩
  omega

/-- **A value with an exposed separator is never recorded as a whole**, under no name. -/
theorem misses_of_exposes (colons : Bool) (hguarded : value.guarded = true)
    (hexposed : value.exposes none = true) :
    ∀ entry ∈ (parseList (listAround value.write) colons).values,
      entry.value ≠ .text (String.ofList (Text.trim value.write)) := by
  obtain ⟨front, separator, back, hcut⟩ : ∃ front separator back,
      Cut (valueOpened colons) [.name] value.write value.guarded front separator back :=
    exists_cut value rfl hexposed
  have hstate : ((valueOpened colons).feed front).state.isNested = false := by
    rw [state, hcut.shelters.states]
    rfl
  rw [parseList, listAround, feed_append, feed_append, feed_name_equals, ← feed_append,
    hcut.text_eq, List.append_assoc, feed_append, List.cons_append, feed_cons,
    step_separator hstate hcut.isSeparator, hcut.shelters.gathers.flush_valueOpened]
  refine Misses.feed ?_ ⟨.inl ⟨⟨rfl, by simp [ScanState.isNaming]⟩, ?_⟩⟩
  · intro entry hmem
    obtain rfl : entry = attributeOf ['k'] (Text.trim front) false := List.mem_singleton.mp hmem
    unfold attributeOf
    dsimp only
    split
    · exact AttributeValue.noConfusion
    · rw [hcut.quoted.trim.interpolate]
      intro hsame
      exact trim_front_ne hcut hguarded
        (hcut.text_eq ▸ String.ofList_injective (AttributeValue.text.inj hsame))
  · show weight colons _ ≤ weight colons _
    rw [weight_trim, weight_append, weight_append, weight_cons colons separator]
    have hflag : weight colons ", z".toList = 0 := by cases colons <;> decide
    omega

end Nesting

open Scanner in
/-- **A value is recorded as it was written exactly when it exposes no separator.** -/
theorem recorded_iff_not_exposes (colons : Bool) (value : Nesting)
    (hguarded : value.guarded = true) (hvisible : Text.trim value.write ≠ []) :
    (parseList (listAround value.write) colons).entries = entriesAround value.write
      ↔ value.exposes none = false := by
  constructor
  · intro hentries
    rw [← Bool.not_eq_true]
    intro hexposed
    refine Nesting.misses_of_exposes colons hguarded hexposed
      { value := .text (String.ofList (Text.trim value.write)) } ?_ rfl
    rw [OrderedMap.values, hentries]
    exact List.mem_cons_self
  · intro hsheltered
    have hshelters : (valueOpened colons).Shelters value.write [.name] (value.shelter none)
        ((valueOpened colons).feed value.write) :=
      value.gathers rfl hsheltered
    have hshelter : value.shelter none = none := (value.shelter_eq_or none).elim id id
    rw [hshelter] at hshelters
    exact entries_listAround value.quoted_write hvisible
      { hshelters.gathers with states := hshelters.states }

/-- The value `[[1], 2]`. -/
def bracketInBrackets : Nesting :=
  .group .square
    (.group .square (.char '1' (by decide) .nil)
      (.char ',' (by decide) (.char ' ' (by decide) (.char '2' (by decide) .nil)))) .nil

/-- **A bracket in brackets ends their shelter**: the comma behind it ends the attribute, and the
    rest is read as a name. -/
theorem bracketInBrackets_exposed :
    bracketInBrackets.guarded = true ∧ Text.trim bracketInBrackets.write ≠ []
      ∧ (parseList (listAround bracketInBrackets.write)).entries
          = [("k", { value := .text "[[1]" }), ("2]", { value := .flag }),
             ("z", { value := .flag })]
      ∧ (parseList (listAround bracketInBrackets.write)).entries
          ≠ entriesAround bracketInBrackets.write := by
  decide +kernel

/-- The value `f([1, (2)], 'x, y')`, where the parentheses shelter. -/
def callOfGroups : Nesting :=
  .char 'f' (by decide) <| .group .round
    (.group .square
      (.char '1' (by decide) <| .char ',' (by decide) <| .group .round
        (.char '2' (by decide) .nil) .nil)
      (.char ',' (by decide) <|
        .literal ⟨'\'', "x, y".toList, by decide, (literalBody_iff rfl).mpr (by decide), by decide⟩
          (by decide) .nil))
    .nil

theorem callOfGroups_recorded :
    (parseList (listAround callOfGroups.write)).entries = entriesAround callOfGroups.write :=
  (recorded_iff_not_exposes false callOfGroups (by decide) (by decide)).mpr (by decide)

end Stencil.Attribute
