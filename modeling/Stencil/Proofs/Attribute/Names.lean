import Stencil.Proofs.Attribute.Stack
import Stencil.Proofs.OrderedMap

/-! # Names — under what an attribute is recorded

    A stroke that ends an attribute mentions the name that was collected, without
    the white space around it, unless nothing is left (`mention?`).  The
    attribute is recorded under that name without the bangs at its ends
    (`entry?`), its value in one table and whether it is escaped in another
    (`Tables`).  The two are the columns of the attributes of the scanner
    (`after_eq_columns`), so they have the same names in the same order.

    The bangs go last: what stood between them is not trimmed any more, and may
    be nothing at all (`bangs_unusable`).  So a recorded name never has a bang at
    its ends, and is free of white space there and not empty exactly if bangs
    alone stood around such a name (`names_usable_iff`). -/

namespace Stencil.Attribute

/-- A name that is not empty and has neither white space nor a bang at its ends. -/
structure Usable (name : List Char) : Prop where
  nonempty : name ≠ []
  trimmed : Text.trim name = name
  front : name.head? ≠ some '!'
  back : name.getLast? ≠ some '!'

/-- A usable name, with bangs around it or without. -/
def Marked (mention : List Char) : Prop :=
  ∃ before name after, mention = before ++ name ++ after
    ∧ (∀ c ∈ before ++ after, c = '!') ∧ Usable name

theorem bangless_iff {name : List Char} :
    Text.dropAround (· == '!') name = name
      ↔ name.head? ≠ some '!' ∧ name.getLast? ≠ some '!' := by
  have hnone : ∀ {c? : Option Char}, (∀ c ∈ c?, (c == '!') = false) ↔ c? ≠ some '!' := by
    rintro (- | c) <;> simp
  rw [Text.dropAround_eq_self_iff, hnone, hnone]

/-- Two tables that are filled side by side, and the scanner that fills them. -/
structure Tables where
  scanner : Scanner
  values : OrderedMap String AttributeValue := .empty
  escapes : OrderedMap String Bool := .empty

namespace Scanner

variable {scanner : Scanner} {colons : Bool} {strokes : List Stroke} {stroke : Stroke}

/-- The name that a stroke ends an attribute with, if it ends one and that has a name. -/
def mention? (scanner : Scanner) (stroke : Stroke) : Option (List Char) :=
  let name := Text.trim scanner.name
  if scanner.flushes stroke && !name.isEmpty then some name else none

/-- What a stroke records. -/
def entry? (scanner : Scanner) (stroke : Stroke) : Option (String × Attribute) :=
  (scanner.mention? stroke).map fun name =>
    (String.ofList (recordedName name),
      attributeOf name (Text.trim scanner.value) scanner.unescaped)

theorem attributes_take (scanner : Scanner) (stroke : Stroke) :
    (scanner.take stroke).attributes
      = scanner.attributes.insertAll (scanner.entry? stroke).toList := by
  cases hflushes : scanner.flushes stroke with
  | false =>
      rw [(take_goesOn hflushes).attributes, entry?, mention?, hflushes]
      rfl
  | true =>
      obtain ⟨last, htake⟩ := take_of_flushes hflushes
      rw [htake, entry?, mention?, hflushes]
      show scanner.flush.attributes = _
      cases hname : (Text.trim scanner.name).isEmpty <;> simp [flush, hname, OrderedMap.insertAll]

/-! ## The collected name -/

theorem unquoted_take (h : ∀ c ∈ scanner.name, Text.isQuote c = false) (stroke : Stroke) :
    ∀ c ∈ (scanner.take stroke).name, Text.isQuote c = false := by
  cases hflushes : scanner.flushes stroke with
  | true =>
      obtain ⟨last, htake⟩ := take_of_flushes hflushes
      rw [htake]
      exact nofun
  | false =>
      rcases (take_goesOn hflushes).name with hname | ⟨c, hc, hname⟩
      · rw [hname]
        exact h
      · rw [hname]
        intro d hd
        rcases List.mem_append.mp hd with hd | hd
        · exact h d hd
        · rw [List.mem_singleton.mp hd]
          exact hc

/-- **No quote is ever part of a name.** -/
theorem unquoted_after (colons : Bool) (strokes : List Stroke) :
    ∀ c ∈ (after colons strokes).name, Text.isQuote c = false := by
  induction strokes using List.reverseRecOn with
  | nil => exact nofun
  | append_singleton strokes stroke ih =>
      rw [after_concat]
      exact unquoted_take ih stroke

/-- Some stroke of a run ends an attribute of this name. -/
def Mentions (colons : Bool) (strokes : List Stroke) (mention : List Char) : Prop :=
  ∃ earlier stroke, earlier ++ [stroke] <+: strokes
    ∧ (after colons earlier).mention? stroke = some mention

theorem mentions_concat {mention : List Char} :
    Mentions colons (strokes ++ [stroke]) mention
      ↔ (after colons strokes).mention? stroke = some mention
        ∨ Mentions colons strokes mention := by
  constructor
  · rintro ⟨earlier, last, hprefix, hmention⟩
    rcases List.prefix_concat_iff.mp hprefix with hall | hprefix
    · obtain ⟨rfl, hlast⟩ := List.append_inj' hall rfl
      cases hlast
      exact .inl hmention
    · exact .inr ⟨earlier, last, hprefix, hmention⟩
  · rintro (hmention | ⟨earlier, last, hprefix, hmention⟩)
    · exact ⟨strokes, stroke, List.prefix_refl _, hmention⟩
    · exact ⟨earlier, last, hprefix.trans (List.prefix_append _ _), hmention⟩

theorem unquoted_of_mentions {mention : List Char} (h : Mentions colons strokes mention) :
    ∀ c ∈ mention, Text.isQuote c = false := by
  obtain ⟨earlier, stroke, -, hmention⟩ := h
  unfold mention? at hmention
  dsimp only at hmention
  split at hmention
  · obtain rfl := Option.some.inj hmention
    obtain ⟨before, after, hname, -⟩ := Text.exists_append_dropAround Text.isBlank
      (Scanner.after colons earlier).name
    intro c hc
    refine unquoted_after colons earlier c ?_
    rw [hname]
    exact List.mem_append_left _ (List.mem_append_right _ hc)
  · exact nomatch hmention

/-- **The names of the attributes** are those that were mentioned, without the bangs. -/
theorem mem_keys_after {name : String} :
    name ∈ (after colons strokes).attributes.keys
      ↔ ∃ mention, Mentions colons strokes mention
        ∧ String.ofList (Text.dropAround (· == '!') mention) = name := by
  induction strokes using List.reverseRecOn with
  | nil =>
      constructor
      · exact nofun
      · rintro ⟨mention, ⟨earlier, stroke, hprefix, -⟩, -⟩
        simp at hprefix
  | append_singleton strokes stroke ih =>
      -- no quote was collected, so there is none to strip
      have hlast : ∀ {mention}, (after colons strokes).mention? stroke = some mention →
          recordedName mention = Text.dropAround (· == '!') mention := by
        intro mention hmention
        have hmentions := mentions_concat.mpr (.inl hmention)
        rw [recordedName, stripQuotes_of_unquoted (unquoted_of_mentions hmentions)]
      rw [after_concat, attributes_take, entry?]
      cases hmention : (after colons strokes).mention? stroke with
      | none =>
          simp only [mentions_concat, hmention, reduceCtorEq, false_or]
          exact ih
      | some mention =>
          have hinsert : name ∈ ((after colons strokes).attributes.insert
                (String.ofList (recordedName mention))
                (attributeOf mention (Text.trim (after colons strokes).value)
                  (after colons strokes).unescaped)).keys
              ↔ name = String.ofList (recordedName mention)
                ∨ name ∈ (after colons strokes).attributes.keys := by
            rw [OrderedMap.keys_insert]
            split
            · next hknown => exact (or_iff_right_of_imp fun heq => heq ▸ hknown).symm
            · rw [List.mem_append, List.mem_singleton, or_comm]
          refine hinsert.trans ?_
          rw [ih, hlast hmention]
          simp only [mentions_concat, hmention, Option.some.injEq, or_and_right, exists_or,
            exists_eq_left', eq_comm]

end Scanner

/-! ## The tables -/

namespace Tables

/-- The tables after a stroke: what it records goes into both. -/
def take (tables : Tables) (stroke : Stroke) : Tables :=
  let recorded := (tables.scanner.entry? stroke).toList
  { scanner := tables.scanner.take stroke
    values := tables.values.insertAll (recorded.map fun entry => (entry.1, entry.2.value))
    escapes := tables.escapes.insertAll (recorded.map fun entry => (entry.1, entry.2.escaped)) }

/-- Empty tables after some strokes. -/
def after (colons : Bool) (strokes : List Stroke) : Tables :=
  strokes.foldl take { scanner := { colons } }

/-- The attributes of a scanner in two tables. -/
def columns (scanner : Scanner) : Tables where
  scanner
  values := scanner.attributes.mapValues (·.value)
  escapes := scanner.attributes.mapValues (·.escaped)

theorem take_columns (scanner : Scanner) (stroke : Stroke) :
    (columns scanner).take stroke = columns (scanner.take stroke) := by
  simp only [columns, take, Scanner.attributes_take]
  cases scanner.entry? stroke with
  | none => rfl
  | some entry => simp [OrderedMap.insertAll, OrderedMap.mapValues_insert]

/-- **Whatever is recorded is recorded in both tables.** -/
theorem after_eq_columns (colons : Bool) (strokes : List Stroke) :
    after colons strokes = columns (Scanner.after colons strokes) := by
  induction strokes using List.reverseRecOn with
  | nil => rfl
  | append_singleton strokes stroke ih =>
      rw [after, List.foldl_concat, Scanner.after_concat, ← take_columns, ← ih]
      rfl

theorem keys_values (colons : Bool) (strokes : List Stroke) :
    (after colons strokes).values.keys = (Scanner.after colons strokes).attributes.keys := by
  rw [after_eq_columns]
  exact OrderedMap.keys_mapValues ..

theorem keys_escapes (colons : Bool) (strokes : List Stroke) :
    (after colons strokes).escapes.keys = (Scanner.after colons strokes).attributes.keys := by
  rw [after_eq_columns]
  exact OrderedMap.keys_mapValues ..

/-! ## Usable names -/

/-- Bangs around a usable name can be taken off, and what is left of anything else is not usable. -/
theorem usable_dropAround_iff {mention : List Char} :
    Usable (Text.dropAround (· == '!') mention) ↔ Marked mention := by
  constructor
  · intro husable
    obtain ⟨before, after, hmention, hbangs⟩ :=
      Text.exists_append_dropAround (· == '!') mention
    exact ⟨before, _, after, hmention, fun c hc => beq_iff_eq.mp (hbangs c hc), husable⟩
  · rintro ⟨before, name, after, rfl, hbangs, husable⟩
    rw [Text.dropAround_append (fun c hc => beq_iff_eq.mpr (hbangs c hc))
      (bangless_iff.mpr ⟨husable.front, husable.back⟩) husable.nonempty]
    exact husable

/-- **The names in the tables**, after every stroke: they are the same in both and in the same
    order, that of the attributes, and none has a bang at an end.  All of them are usable if and
    only if every name that was mentioned is a usable one with bangs around it or without. -/
theorem names_usable_iff (colons : Bool) (strokes : List Stroke) :
    after colons strokes = columns (Scanner.after colons strokes)
      ∧ (after colons strokes).values.keys = (after colons strokes).escapes.keys
      ∧ (∀ name ∈ (after colons strokes).values.keys,
        name.toList.head? ≠ some '!' ∧ name.toList.getLast? ≠ some '!')
      ∧ ((∀ name ∈ (after colons strokes).values.keys, Usable name.toList)
        ↔ ∀ mention, Scanner.Mentions colons strokes mention → Marked mention) := by
  refine ⟨after_eq_columns colons strokes, ?_, ?_, ?_⟩
  · rw [keys_values, keys_escapes]
  · intro name hname
    rw [keys_values] at hname
    obtain ⟨mention, -, rfl⟩ := Scanner.mem_keys_after.mp hname
    rw [String.toList_ofList]
    exact bangless_iff.mp (Text.dropAround_idem _ mention)
  · rw [keys_values]
    constructor
    · intro husable mention hmention
      have hname := husable _ (Scanner.mem_keys_after.mpr ⟨mention, hmention, rfl⟩)
      rw [String.toList_ofList] at hname
      exact usable_dropAround_iff.mp hname
    · intro hmarked name hname
      obtain ⟨mention, hmention, rfl⟩ := Scanner.mem_keys_after.mp hname
      rw [String.toList_ofList]
      exact usable_dropAround_iff.mpr (hmarked mention hmention)

/-- A bang alone is recorded under the empty name, and what stands behind a bang and a blank is
    recorded with the blank. -/
theorem bangs_unusable :
    (after false [.char '!', .close]).values.keys = [""]
      ∧ ¬ Usable "".toList
      ∧ (after false [.char '!', .char ' ', .char 'a', .close]).values.keys = [" a"]
      ∧ ¬ Usable " a".toList :=
  ⟨by decide, fun h => h.nonempty rfl, by decide, fun h => absurd h.trimmed (by decide)⟩

end Tables

end Stencil.Attribute
