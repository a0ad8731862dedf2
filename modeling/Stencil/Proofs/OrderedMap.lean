import Stencil.OrderedMap
import Mathlib.Data.List.Induction

/-! # Maps of lists — order and values of what is put in

    An insertion puts in one value and leaves the others, but for the one whose
    place it takes (`mem_values_insert`).  A list of pairs makes a map whose keys
    stand in the order of their first mention (`keys_ofList`), each with the
    value of its last (`get?_ofList`).  So it does not matter whether a pair is put
    in a map before or after the map is put in another one (`insertAll_insert`). -/

namespace Stencil.OrderedMap

variable {κ α : Type} [DecidableEq κ]

private theorem keys_insertEntry (key : κ) (value : α) (entries : List (κ × α)) :
    (insertEntry key value entries).map Prod.fst
      = if key ∈ entries.map Prod.fst then entries.map Prod.fst
        else entries.map Prod.fst ++ [key] := by
  induction entries with
  | nil => rfl
  | cons entry rest ih =>
      obtain ⟨k, v⟩ := entry
      by_cases hk : k = key
      · simp [insertEntry, hk]
      · have hne : key ≠ k := Ne.symm hk
        simp only [insertEntry, if_neg hk, List.map_cons, ih, List.mem_cons, hne, false_or]
        split <;> rfl

/-- A new key goes to the end; a known one stays where it is. -/
theorem keys_insert (map : OrderedMap κ α) (key : κ) (value : α) :
    (map.insert key value).keys = if key ∈ map.keys then map.keys else map.keys ++ [key] :=
  keys_insertEntry key value map.entries

theorem mem_entries_insert {map : OrderedMap κ α} {key : κ} {value : α} {entry : κ × α}
    (h : entry ∈ (map.insert key value).entries) : entry = (key, value) ∨ entry ∈ map.entries := by
  obtain ⟨entries⟩ := map
  replace h : entry ∈ insertEntry key value entries := h
  induction entries with
  | nil => exact .inl (List.mem_singleton.mp h)
  | cons first rest ih =>
      rw [insertEntry] at h
      split at h
      · exact (List.mem_cons.mp h).imp_right (List.mem_cons_of_mem _)
      · rcases List.mem_cons.mp h with rfl | h
        · exact .inr List.mem_cons_self
        · exact (ih h).imp_right (List.mem_cons_of_mem _)

/-- The values after an insertion are the new one and some of those before. -/
theorem mem_values_insert {map : OrderedMap κ α} {key : κ} {value other : α}
    (h : other ∈ (map.insert key value).values) : other = value ∨ other ∈ map.values := by
  obtain ⟨entry, hentry, rfl⟩ := List.mem_map.mp h
  rcases mem_entries_insert hentry with rfl | hentry
  · exact .inl rfl
  · exact .inr (List.mem_map.mpr ⟨entry, hentry, rfl⟩)

theorem mem_values_of_get? {map : OrderedMap κ α} {key : κ} {value : α}
    (h : map.get? key = some value) : value ∈ map.values := by
  obtain ⟨before, after, hentries, -⟩ := List.lookup_eq_some_iff.mp h
  exact List.mem_map.mpr ⟨(key, value), by simp [hentries], rfl⟩

/-- Values that are told apart by a function stay so when one is put in that differs from all. -/
theorem nodup_map_values_insert {β : Type} (f : α → β) {map : OrderedMap κ α} {value : α}
    (h : (map.values.map f).Nodup) (hnew : ∀ other ∈ map.values, f other ≠ f value) (key : κ) :
    ((map.insert key value).values.map f).Nodup := by
  obtain ⟨entries⟩ := map
  replace h : ((entries.map Prod.snd).map f).Nodup := h
  replace hnew : ∀ other ∈ entries.map Prod.snd, f other ≠ f value := hnew
  show (((insertEntry key value entries).map Prod.snd).map f).Nodup
  induction entries with
  | nil => exact List.nodup_cons.mpr ⟨nofun, List.nodup_nil⟩
  | cons first rest ih =>
      obtain ⟨k, v⟩ := first
      simp only [List.map_cons, List.nodup_cons] at h
      obtain ⟨hfirst, hrest⟩ := List.forall_mem_cons.mp hnew
      rw [insertEntry]
      split
      · refine List.nodup_cons.mpr ⟨fun hmem => ?_, h.2⟩
        obtain ⟨other, hother, heq⟩ := List.mem_map.mp hmem
        exact hrest other hother heq
      · refine List.nodup_cons.mpr ⟨fun hmem => ?_, ih h.2 hrest⟩
        obtain ⟨other, hother, heq⟩ := List.mem_map.mp hmem
        have hvalues : other ∈ ((⟨rest⟩ : OrderedMap κ α).insert key value).values := hother
        rcases mem_values_insert hvalues with rfl | hother
        · exact hfirst heq.symm
        · exact h.1 (List.mem_map.mpr ⟨other, hother, heq⟩)

theorem nodup_keys_insert {map : OrderedMap κ α} (h : map.keys.Nodup) (key : κ) (value : α) :
    (map.insert key value).keys.Nodup := by
  rw [keys_insert]
  split
  · exact h
  · next hnew =>
      have hkeys : (key :: map.keys).Nodup := List.nodup_cons.mpr ⟨hnew, h⟩
      exact (List.perm_append_singleton key map.keys).nodup_iff.mpr hkeys

/-- The later value for a key takes the place of the earlier one. -/
theorem insert_insert (map : OrderedMap κ α) (key : κ) (value later : α) :
    (map.insert key value).insert key later = map.insert key later := by
  have hentries : ∀ entries : List (κ × α),
      insertEntry key later (insertEntry key value entries) = insertEntry key later entries := by
    intro entries
    induction entries with
    | nil => simp [insertEntry]
    | cons first rest ih =>
        obtain ⟨k, v⟩ := first
        by_cases hk : k = key
        · simp [insertEntry, hk]
        · simp [insertEntry, hk, ih]
  exact congrArg mk (hentries map.entries)

/-- A key that has its place keeps it when another one is put in first. -/
theorem insert_comm {map : OrderedMap κ α} {key other : κ} (hkey : key ∈ map.keys)
    (hne : other ≠ key) (value another : α) :
    (map.insert other another).insert key value = (map.insert key value).insert other another := by
  have hentries : ∀ entries : List (κ × α), key ∈ entries.map Prod.fst →
      insertEntry key value (insertEntry other another entries)
        = insertEntry other another (insertEntry key value entries) := by
    intro entries hmem
    induction entries with
    | nil => exact nomatch hmem
    | cons first rest ih =>
        obtain ⟨k, v⟩ := first
        by_cases hk : k = key
        · subst hk
          simp [insertEntry, hne.symm]
        · have hrest : key ∈ rest.map Prod.fst := by simpa [Ne.symm hk] using hmem
          by_cases hother : k = other
          · simp [insertEntry, hother, hne]
          · simp [insertEntry, hother, hk, ih hrest]
  exact congrArg mk (hentries map.entries hkey)

theorem insertAll_insert_comm {key : κ} {pairs : List (κ × α)} (hpairs : key ∉ pairs.map Prod.fst)
    {map : OrderedMap κ α} (hkey : key ∈ map.keys) (value : α) :
    (map.insertAll pairs).insert key value = (map.insert key value).insertAll pairs := by
  induction pairs generalizing map with
  | nil => rfl
  | cons pair pairs ih =>
      rw [List.map_cons, List.mem_cons, not_or] at hpairs
      have hstays : key ∈ (map.insert pair.1 pair.2).keys := by
        rw [keys_insert]
        split
        · exact hkey
        · exact List.mem_append_left _ hkey
      show ((map.insert pair.1 pair.2).insertAll pairs).insert key value
        = ((map.insert key value).insert pair.1 pair.2).insertAll pairs
      rw [ih hpairs.2 hstays, insert_comm hkey (Ne.symm hpairs.1)]

/-- **Putting in all of a map and then one more** is putting in all of the map with one more. -/
theorem insertAll_insert (base : OrderedMap κ α) {map : OrderedMap κ α} (h : map.keys.Nodup)
    (key : κ) (value : α) :
    base.insertAll (map.insert key value).entries
      = (base.insertAll map.entries).insert key value := by
  obtain ⟨entries⟩ := map
  replace h : (entries.map Prod.fst).Nodup := h
  show base.insertAll (insertEntry key value entries) = (base.insertAll entries).insert key value
  induction entries generalizing base with
  | nil => rfl
  | cons first rest ih =>
      obtain ⟨k, v⟩ := first
      obtain ⟨hk, hrest⟩ := List.nodup_cons.mp h
      rw [insertEntry]
      split
      · next hsame =>
          -- the key keeps the place it had, so the pairs behind it may come first
          subst hsame
          have hmem : k ∈ (base.insert k v).keys := mem_keys (by simp)
          show (base.insert k value).insertAll rest
            = ((base.insert k v).insertAll rest).insert k value
          rw [insertAll_insert_comm hk hmem, insert_insert]
      · exact ih (base.insert k v) hrest


theorem ofList_concat (pairs : List (κ × α)) (pair : κ × α) :
    ofList (pairs ++ [pair]) = (ofList pairs).insert pair.1 pair.2 := by
  rw [ofList, insertAll, List.foldl_append]
  rfl

/-- **The keys stand in the order of their first mention.** -/
theorem keys_ofList (pairs : List (κ × α)) :
    (ofList pairs).keys = (pairs.map Prod.fst).eraseDups := by
  induction pairs using List.reverseRecOn with
  | nil => rfl
  | append_singleton earlier pair ih =>
      rw [ofList_concat, keys_insert, ih, List.map_append, List.eraseDups_append, List.removeAll]
      by_cases h : pair.1 ∈ earlier.map Prod.fst
      · simp only [List.mem_eraseDups, if_pos h]
        simp [h]
      · simp only [List.mem_eraseDups, if_neg h]
        simp [h, List.eraseDups_cons]

/-- **A key has the value of its last mention.** -/
theorem get?_ofList (pairs : List (κ × α)) (key : κ) :
    (ofList pairs).get? key = pairs.reverse.lookup key := by
  induction pairs using List.reverseRecOn with
  | nil => rfl
  | append_singleton earlier pair ih =>
      obtain ⟨k, v⟩ := pair
      rw [ofList_concat, get?_insert, ih, List.reverse_concat]
      by_cases h : key = k
      · simp [h]
      · simp [h, List.lookup_cons, beq_eq_false_iff_ne.mpr h]

/-! ## Maps of images -/

omit [DecidableEq κ] in
theorem keys_mapValues {β : Type} (g : α → β) (map : OrderedMap κ α) :
    (map.mapValues g).keys = map.keys := by
  simp only [keys, mapValues, List.map_map, Function.comp_def]

omit [DecidableEq κ] in
theorem values_mapValues {β : Type} (g : α → β) (map : OrderedMap κ α) :
    (map.mapValues g).values = map.values.map g := by
  simp only [values, mapValues, List.map_map, Function.comp_def]

theorem get?_mapValues {β : Type} (g : α → β) (map : OrderedMap κ α) (key : κ) :
    (map.mapValues g).get? key = (map.get? key).map g := by
  obtain ⟨entries⟩ := map
  show (entries.map fun entry => (entry.1, g entry.2)).lookup key = (entries.lookup key).map g
  induction entries with
  | nil => rfl
  | cons entry rest ih =>
      rw [List.map_cons, List.lookup_cons, List.lookup_cons, ih]
      cases key == entry.1 <;> rfl

private theorem map_insertEntry {β : Type} (g : α → β) (key : κ) (value : α)
    (entries : List (κ × α)) :
    (insertEntry key value entries).map (fun entry => (entry.1, g entry.2))
      = insertEntry key (g value) (entries.map fun entry => (entry.1, g entry.2)) := by
  induction entries with
  | nil => rfl
  | cons entry rest ih =>
      rw [insertEntry, List.map_cons, insertEntry]
      split
      · rfl
      · rw [List.map_cons, ih]

theorem mapValues_insert {β : Type} (g : α → β) (map : OrderedMap κ α) (key : κ) (value : α) :
    (map.insert key value).mapValues g = (map.mapValues g).insert key (g value) :=
  congrArg mk (map_insertEntry g key value map.entries)

end Stencil.OrderedMap
