import Stencil.Proofs.Attribute.Collecting
import Stencil.Proofs.Attribute.Recorded
import Stencil.Proofs.OrderedMap

/-! # Attribute lists read back

    A list of attributes that is written down is read as the map of them: the
    names in the order of their first mention, each with its last value and flag
    (`parseList_writeList`).

    An entry is read in two parts.  Its name, with its bang, is collected up to
    the equals sign, which remembers the bang (`Ready.feed_collected`); and its
    value is collected as it stands (`Ready.feed_write`).  At the separator
    behind it, and at the end of the list, what was collected is recorded
    (`Holds.flush`). -/

namespace Stencil.Attribute

namespace Scanner

variable {scanner : Scanner}

/-- The characters that a name is made of, the bang at it included. -/
def IsNamePart (c : Char) : Prop :=
  isSeparator c = false ∧ Text.isQuote c = false ∧ isBracket c = false ∧ c ≠ '=' ∧ c ≠ ':'

theorem isNamePart_of_mem_collected {entry : Entry} {c : Char} (h : c ∈ entry.collected) :
    IsNamePart c := by
  have hname : ∀ c ∈ entry.name.text.toList, IsNamePart c := fun c hc =>
    have hplain := entry.name.plain c hc
    ⟨hplain.1, hplain.2.1, hplain.2.2.1, hplain.2.2.2.1, hplain.2.2.2.2.1⟩
  have hbang : IsNamePart '!' := by simp [IsNamePart, isSeparator, Text.isQuote, isBracket]
  obtain ⟨name, value | value, - | -⟩ := entry <;>
    simp only [Entry.collected, List.mem_cons, List.mem_append, List.not_mem_nil, or_false] at h
  · exact h.elim (fun h => h ▸ hbang) (hname c)
  · exact hname c h
  · exact h.elim (hname c) (fun h => h ▸ hbang)
  · exact hname c h

theorem step_name {c : Char} (h : scanner.state = .name) (hc : IsNamePart c) :
    scanner.step c = { scanner.pushName c with last := some c } := by
  obtain ⟨hseparator, hquote, hbracket, hequals, hcolon⟩ := hc
  have hmeaning : meaning scanner.colons c = c := by simp [meaning, hcolon]
  have hstep : scanner.step c
      = { scanner.pushName c with last := some (meaning scanner.colons c) } := by
    apply step_eq <;>
      simp [push, h, hseparator, hquote, hbracket, hequals, hcolon, ScanState.isNaming]
  rw [hstep, hmeaning]

/-- A name is collected, and its last character is remembered. -/
theorem feed_name {text : List Char} (h : scanner.state = .name)
    (htext : ∀ c ∈ text, IsNamePart c) :
    scanner.feed text
      = { scanner with name := scanner.name ++ text, last := text.getLast?.or scanner.last } := by
  induction text generalizing scanner with
  | nil => simp [feed]
  | cons c rest ih =>
      have hstep := step_name h (htext c List.mem_cons_self)
      have hstate : (scanner.step c).state = .name := by rw [hstep]; exact h
      rw [feed_cons, ih hstate fun c hc => htext c (List.mem_cons_of_mem _ hc), hstep]
      cases rest <;> simp [pushName, List.getLast?_cons]

/-! ## Entries -/

variable {colons : Bool} {attributes : Attributes}

/-- A scanner that has recorded the attributes before and not begun with the next one. -/
structure Ready (scanner : Scanner) (colons : Bool) (attributes : Attributes) : Prop where
  colons : scanner.colons = colons
  states : scanner.states = [.name]
  name : scanner.name = []
  value : scanner.value = []
  unescaped : scanner.unescaped = false
  attributes : scanner.attributes = attributes

/-- A scanner that has read an entry and not yet recorded it. -/
structure Holds (scanner : Scanner) (colons : Bool) (attributes : Attributes) (entry : Entry) :
    Prop where
  colons : scanner.colons = colons
  outermost : scanner.state.isNested = false
  name : scanner.name = entry.collected
  value : scanner.value = entry.value.elim [] (·.text.toList)
  unescaped : scanner.unescaped = (entry.value.isSome && !entry.escaped)
  attributes : scanner.attributes = attributes

/-- A scanner that has read the name of an entry, and what came before. -/
structure Named (scanner : Scanner) (colons : Bool) (attributes : Attributes) (entry : Entry) :
    Prop where
  colons : scanner.colons = colons
  state : scanner.state = .name
  name : scanner.name = entry.collected
  value : scanner.value = []
  last : scanner.last = entry.collected.getLast?
  unescaped : scanner.unescaped = false
  attributes : scanner.attributes = attributes

theorem Ready.feed_collected (h : scanner.Ready colons attributes) (entry : Entry) :
    (scanner.feed entry.collected).Named colons attributes entry := by
  have hstate : scanner.state = .name := by rw [state, h.states]; rfl
  obtain ⟨c, hlast⟩ := Option.ne_none_iff_exists'.mp
    (mt List.getLast?_eq_none_iff.mp entry.collected_ne_nil)
  have hparts : ∀ c ∈ entry.collected, IsNamePart c := fun _ => isNamePart_of_mem_collected
  rw [feed_name hstate hparts, hlast]
  exact ⟨h.colons, hstate, by simp [h.name], h.value, hlast.symm, h.unescaped, h.attributes⟩

variable {entry : Entry}

/-- The equals sign behind a name opens the value, and the name's bang is taken down. -/
theorem Named.step_equalsSign (h : scanner.Named colons attributes entry) :
    scanner.step (equalsSign colons)
      = { { scanner with unescaped := entry.collected.getLast? == some '!' }.enter .value with
          last := some '=' } := by
  have hmeaning : meaning scanner.colons (equalsSign colons) = '=' := by
    rw [h.colons]
    cases colons <;> rfl
  simp [step, hmeaning, readEquals, h.state, h.last]

/-- An entry is read. -/
theorem Ready.feed_write (h : scanner.Ready colons attributes) (entry : Entry) :
    (scanner.feed (entry.write colons)).Holds colons attributes entry := by
  have hnamed := h.feed_collected entry
  rw [Entry.write_eq, feed_append]
  generalize scanner.feed entry.collected = named at hnamed
  cases hvalue : entry.value with
  | none =>
      exact {
        colons := hnamed.colons
        outermost := congrArg ScanState.isNested hnamed.state
        name := hnamed.name
        value := by rw [hvalue]; exact hnamed.value
        unescaped := by rw [hvalue]; exact hnamed.unescaped
        attributes := hnamed.attributes }
  | some value =>
      rw [Option.elim_some, feed_cons, hnamed.step_equalsSign,
        entry.getLast?_collected_of_value (by rw [hvalue]; rfl)]
      have hinside : ({ { named with unescaped := !entry.escaped }.enter .value with
          last := some '=' } : Scanner).Inside .none := rfl
      have hcollects := value.nested.collects hinside
      exact {
        colons := hcollects.colons.trans hnamed.colons
        outermost := by rw [state, hcollects.states]; rfl
        name := hcollects.name.trans hnamed.name
        value := by
          rw [hcollects.value, hvalue]
          show named.value ++ _ = _
          rw [hnamed.value, List.nil_append, Option.elim_some]
        unescaped := by rw [hcollects.unescaped, hvalue]; rfl
        attributes := hcollects.attributes.trans hnamed.attributes }

/-- What was collected for an entry makes its attribute. -/
theorem attributeOf_collected (entry : Entry) :
    attributeOf entry.collected (entry.value.elim [] (·.text.toList))
      (entry.value.isSome && !entry.escaped) = entry.attribute := by
  obtain ⟨c, rest, hname, hc⟩ := entry.name.head_eq
  obtain ⟨name, value | value, escaped⟩ := entry
  · cases escaped <;> simp_all [attributeOf, Entry.attribute, Entry.collected]
  · have hhead : (Entry.mk name (some value) escaped).collected.head? ≠ some '!' := by
      cases escaped <;> simp_all [Entry.collected]
    simp [attributeOf, Entry.attribute, value.nonempty, hhead,
      interpolate_of_not_infix value.uninterpolated]

/-- What was read is recorded. -/
theorem Holds.flush (h : scanner.Holds colons attributes entry) :
    scanner.flush.Ready colons (attributes.insert entry.name.text entry.attribute) where
  colons := h.colons
  states := rfl
  name := rfl
  value := rfl
  unescaped := rfl
  attributes := by
    have hname : entry.collected.isEmpty = false := by simp [entry.collected_ne_nil]
    show (if _ then _ else _) = _
    rw [h.name, h.value, h.unescaped, entry.trim_collected, entry.trim_value,
      if_neg (by simp [hname]), entry.recordedName_collected, String.ofList_toList, h.attributes,
      attributeOf_collected]

/-- A separator behind an entry records it. -/
theorem Holds.step_separator (h : scanner.Holds colons attributes entry) (separator : Separator) :
    (scanner.step separator.char).Ready colons
      (attributes.insert entry.name.text entry.attribute) := by
  have hstep : scanner.step separator.char
      = { scanner.flush with last := some separator.char } := by
    cases separator <;> simp [step, meaning, Separator.char, readSeparator, h.outermost]
  rw [hstep]
  exact { h.flush with }

/-! ## Lists -/

/-- **A list is read, entry by entry.** -/
theorem Ready.feed_writeList {list : List (Entry × Separator)}
    (h : scanner.Ready colons attributes) :
    (scanner.feed (writeList colons list)).flush.attributes
      = attributes.insertAll (list.map fun item => item.1.binding) := by
  induction list generalizing scanner attributes with
  | nil =>
      show (if _ then _ else _) = _
      rw [show (scanner.feed (writeList colons [])).name = [] from h.name]
      exact h.attributes
  | cons item others ih =>
      obtain ⟨entry, separator⟩ := item
      cases others with
      | nil => exact (h.feed_write entry).flush.attributes
      | cons next others =>
          rw [writeList, feed_append, feed_cons]
          exact ih ((h.feed_write entry).step_separator separator)

end Scanner

open Scanner in
/-- **A written list is read back**, whichever sign stands between names and values: its names
    come in the order of their first mention, and each has the value and the flag of its last. -/
theorem parseList_writeList (colons : Bool) (list : List (Entry × Separator)) :
    (parseList (writeList colons list) colons).keys
        = (list.map fun item => item.1.name.text).eraseDups
      ∧ ∀ name : String, (parseList (writeList colons list) colons).get? name
          = (list.reverse.find? fun item => name == item.1.name.text).map
              fun item => item.1.attribute := by
  have hready : Ready { colons } colons .empty := ⟨rfl, rfl, rfl, rfl, rfl, rfl⟩
  have hread : parseList (writeList colons list) colons
      = .ofList (list.map fun item => item.1.binding) := hready.feed_writeList
  rw [hread]
  refine ⟨?_, fun name => ?_⟩
  · rw [OrderedMap.keys_ofList, List.map_map]
    rfl
  · rw [OrderedMap.get?_ofList, ← List.map_reverse]
    induction list.reverse with
    | nil => rfl
    | cons item others ih =>
        rw [List.map_cons, Entry.binding, List.lookup_cons, List.find?_cons, ih]
        split <;> rfl

example : (parseList "a=f(x, [y]),b!='z',!c\na=1".toList).entries
    = [("a", { value := .text "1" }), ("b", { value := .text "'z'", escaped := false }),
       ("c", { value := .flag, escaped := false })] := by decide +kernel

end Stencil.Attribute
