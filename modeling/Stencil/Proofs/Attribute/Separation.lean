import Stencil.Proofs.Attribute.Exposure
import Stencil.Proofs.OrderedMap

/-! # Separation — a list behind a separator is read by itself

    What a scanner has recorded so far is in no way looked at when it reads on: a
    step of a scanner that started with some attributes is the step without them,
    put behind them (`Scanner.step_onto`), and so is a run (`Scanner.feed_onto`).
    Putting an attribute behind others is not adding it at the end, as a name that
    is among them keeps its place; that the names of a scanner differ is what
    makes both orders agree (`Scanner.nodup_keys_feed`).

    A separator outside of quotes and groups clears all else a scanner holds.
    Only the separator itself is remembered, which matters to no character behind
    it (`Scanner.step_behind`).  So a list, a separator and another list record
    what the two lists record, one put behind the other
    (`parseList_append_separator`). -/

namespace Stencil.Attribute

namespace Scanner

variable {scanner : Scanner} {base : Attributes}

/-- A scanner that had recorded some attributes before it started. -/
def onto (base : Attributes) (scanner : Scanner) : Scanner :=
  { scanner with attributes := base.insertAll scanner.attributes.entries }

theorem flush_onto (h : scanner.attributes.keys.Nodup) :
    (scanner.onto base).flush = scanner.flush.onto base := by
  unfold flush onto
  dsimp only
  split
  · rfl
  · rw [OrderedMap.insertAll_insert base h]

theorem push_onto (scanner : Scanner) (state : ScanState) (c : Char) :
    (scanner.onto base).push state c = (scanner.push state c).onto base := by
  unfold push
  split <;> rfl

theorem state_onto : (scanner.onto base).state = scanner.state := rfl

theorem readSeparator_onto (h : scanner.attributes.keys.Nodup) (c : Char) :
    (scanner.onto base).readSeparator c = (scanner.readSeparator c).onto base := by
  rw [readSeparator, readSeparator, flush_onto h, state_onto, apply_ite (onto base)]
  rfl

theorem readEquals_onto (written : Char) :
    (scanner.onto base).readEquals written = (scanner.readEquals written).onto base := by
  rw [readEquals, readEquals, state_onto]
  cases scanner.state <;> rfl

theorem readOpening_onto (c : Char) :
    (scanner.onto base).readOpening c = (scanner.readOpening c).onto base := by
  simp only [readOpening, state_onto]
  cases scanner.state.opened c with
  | some group => exact push_onto (scanner.enter group) _ _
  | none => exact push_onto _ _ _

theorem readClosing_onto (c : Char) :
    (scanner.onto base).readClosing c = (scanner.readClosing c).onto base := by
  show (if scanner.state.isClosedBy c then (scanner.leave.onto base).push scanner.state c
    else (scanner.onto base).push scanner.state c) = _
  rw [push_onto, push_onto, ← apply_ite (onto base)]
  rfl

theorem readQuote_onto (c : Char) :
    (scanner.onto base).readQuote c = (scanner.readQuote c).onto base := by
  have hquote : (scanner.onto base).quote = scanner.quote := rfl
  simp only [readQuote, state_onto, hquote]
  cases scanner.state <;> try rfl
  cases c == scanner.quote <;> rfl

/-- **What was recorded before does not matter** for what a character does. -/
theorem step_onto (h : scanner.attributes.keys.Nodup) (c : Char) :
    (scanner.onto base).step c = (scanner.step c).onto base := by
  have hcolons : (scanner.onto base).colons = scanner.colons := rfl
  have hstate : (scanner.onto base).state = scanner.state := rfl
  unfold step
  simp only [hcolons, hstate, readSeparator_onto h, readEquals_onto, readOpening_onto,
    readClosing_onto, readQuote_onto, push_onto, ← apply_ite (onto base)]
  rfl

theorem nodup_keys_step (h : scanner.attributes.keys.Nodup) (c : Char) :
    (scanner.step c).attributes.keys.Nodup := by
  rcases scanner.step_flushes_or_adds c with ⟨last, hstep⟩ | hadds
  · rw [hstep]
    show (if _ then _ else _ : Attributes).keys.Nodup
    split
    · exact h
    · exact OrderedMap.nodup_keys_insert h _ _
  · rw [hadds.attributes]
    exact h

theorem nodup_keys_feed (h : scanner.attributes.keys.Nodup) (text : List Char) :
    (scanner.feed text).attributes.keys.Nodup := by
  induction text generalizing scanner with
  | nil => exact h
  | cons c text ih => exact ih (nodup_keys_step h c)

theorem feed_onto (h : scanner.attributes.keys.Nodup) (text : List Char) :
    (scanner.onto base).feed text = (scanner.feed text).onto base := by
  induction text generalizing scanner with
  | nil => rfl
  | cons c text ih =>
      rw [feed_cons, feed_cons, step_onto h, ih (nodup_keys_step h c)]

/-- A separator is no bang, so nothing is remembered of it. -/
theorem step_behind (colons : Bool) (separator : Separator) (c : Char) :
    ({ colons, last := some separator.char } : Scanner).step c = ({ colons } : Scanner).step c := by
  unfold step
  dsimp only
  split
  · rfl
  · split
    · cases separator <;> rfl
    · split
      · rfl
      · split
        · rfl
        · split <;> rfl

theorem isSome_last_feed (scanner : Scanner) (c : Char) (text : List Char) :
    (scanner.feed (c :: text)).last.isSome = true := by
  induction text generalizing scanner c with
  | nil => rfl
  | cons d text ih => exact ih (scanner.step c) d

theorem feed_behind (colons : Bool) (separator : Separator) (text : List Char) :
    ({ colons, last := some separator.char } : Scanner).feed text
      = { ({ colons } : Scanner).feed text with
          last := (({ colons } : Scanner).feed text).last.or (some separator.char) } := by
  cases text with
  | nil => rfl
  | cons c text =>
      -- another character is remembered by now, so the separator is forgotten
      obtain ⟨d, hd⟩ := Option.isSome_iff_exists.mp (isSome_last_feed { colons } c text)
      rw [hd, Option.some_or, ← hd, feed_cons, feed_cons, step_behind]

theorem colons_feed (scanner : Scanner) (text : List Char) :
    (scanner.feed text).colons = scanner.colons := by
  induction text generalizing scanner with
  | nil => rfl
  | cons c text ih => rw [feed_cons, ih, colons_step]

theorem isSeparator_char (separator : Separator) : isSeparator separator.char = true := by
  cases separator <;> rfl

end Scanner

open Scanner in
/-- **A separator cuts a list in two**: what stands before it is recorded first, then what stands
    behind it, which leaves the scanner as it would have been left without the first part. -/
theorem parseList_append_separator {colons : Bool} {front : List Char}
    (hfront : (({ colons } : Scanner).feed front).state ∈
      [ScanState.name, ScanState.quotedName, ScanState.value])
    (separator : Separator) (back : List Char) :
    parseList (front ++ separator.char :: back) colons
        = (parseList front colons).insertAll (parseList back colons).entries
      ∧ ({ colons } : Scanner).feed (front ++ separator.char :: back)
        = { (({ colons } : Scanner).feed back).onto (parseList front colons) with
            last := (({ colons } : Scanner).feed back).last.or (some separator.char) } := by
  have hstate : (({ colons } : Scanner).feed front).state.isNested = false := by
    simp only [List.mem_cons, List.not_mem_nil, or_false] at hfront
    rcases hfront with h | h | h <;> rw [h] <;> rfl
  -- the separator leaves nothing of the list before it but what was recorded
  have hcut : (({ colons } : Scanner).feed front).step separator.char
      = ({ colons, last := some separator.char } : Scanner).onto (parseList front colons) := by
    rw [step_separator hstate (isSeparator_char separator), parseList]
    simp only [flush, colons_feed]
    rfl
  have hnodup : ∀ last, ({ colons, last } : Scanner).attributes.keys.Nodup :=
    fun _ => List.nodup_nil
  have hfeed : ({ colons } : Scanner).feed (front ++ separator.char :: back)
      = { (({ colons } : Scanner).feed back).onto (parseList front colons) with
          last := (({ colons } : Scanner).feed back).last.or (some separator.char) } := by
    rw [feed_append, feed_cons, hcut, feed_onto (hnodup _), feed_behind]
    rfl
  refine ⟨?_, hfeed⟩
  rw [parseList, hfeed]
  show ((({ colons } : Scanner).feed back).onto (parseList front colons)).flush.attributes = _
  rw [flush_onto (nodup_keys_feed (hnodup none) back)]
  rfl

/-- A list that ends inside the quotes of a name, and a list that mentions its first name again. -/
theorem parseList_append_separator_openName :
    (({} : Scanner).feed "x!='y', \"b".toList).state = .quotedName
      ∧ parseList ("x!='y', \"b".toList ++ ',' :: "c!=(1, 2), x".toList)
        = (parseList "x!='y', \"b".toList).insertAll (parseList "c!=(1, 2), x".toList).entries
      ∧ (parseList ("x!='y', \"b".toList ++ ',' :: "c!=(1, 2), x".toList)).entries
        = [("x", { value := .flag }), ("b", { value := .flag }),
           ("c", { value := .text "(1, 2)", escaped := false })] :=
  ⟨by decide, (parseList_append_separator (by decide) .comma _).1, by decide +kernel⟩

end Stencil.Attribute
