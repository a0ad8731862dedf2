/-! # Ordered maps — look-up tables that remember the order of entry

    An ordered map lists its entries in the order in which their keys first
    came in.  A later value for a key that is present takes the place of the
    earlier one; a removed key loses its place. -/

namespace Stencil

/-- A finite map that keeps its keys in the order of their first insertion. -/
structure OrderedMap (κ : Type) (α : Type) where
  /-- The entries, oldest key first. -/
  entries : List (κ × α) := []
deriving Repr, DecidableEq

namespace OrderedMap

variable {κ α β : Type} [DecidableEq κ]

/-- The map without entries. -/
def empty : OrderedMap κ α := ⟨[]⟩

/-- Puts a value under a key into a list of entries: in place when the key is there. -/
def insertEntry (key : κ) (value : α) : List (κ × α) → List (κ × α)
  | [] => [(key, value)]
  | (k, v) :: rest => if k = key then (key, value) :: rest else (k, v) :: insertEntry key value rest

/-- Puts a value under a key. -/
def insert (map : OrderedMap κ α) (key : κ) (value : α) : OrderedMap κ α :=
  ⟨insertEntry key value map.entries⟩

/-- The value under a key. -/
def get? (map : OrderedMap κ α) (key : κ) : Option α := map.entries.lookup key

/-- Whether a key has a value. -/
def contains (map : OrderedMap κ α) (key : κ) : Bool := (map.get? key).isSome

/-- Removes a key and its value. -/
def erase (map : OrderedMap κ α) (key : κ) : OrderedMap κ α :=
  ⟨map.entries.filter fun entry => decide (entry.1 ≠ key)⟩

/-- The keys in the order of their first insertion. -/
def keys (map : OrderedMap κ α) : List κ := map.entries.map Prod.fst

/-- The values in the order of their keys. -/
def values (map : OrderedMap κ α) : List α := map.entries.map Prod.snd

/-- The number of entries. -/
def size (map : OrderedMap κ α) : Nat := map.entries.length

/-- Puts every pair of a list in, from the first to the last. -/
def insertAll (map : OrderedMap κ α) (pairs : List (κ × α)) : OrderedMap κ α :=
  pairs.foldl (fun built pair => built.insert pair.1 pair.2) map

/-- The map of a list of pairs; the last value for a key wins. -/
def ofList (pairs : List (κ × α)) : OrderedMap κ α := empty.insertAll pairs

/-- Applies a function to every value. -/
def mapValues (f : α → β) (map : OrderedMap κ α) : OrderedMap κ β :=
  ⟨map.entries.map fun entry => (entry.1, f entry.2)⟩

/-! ## Looking up -/

private theorem lookup_insertEntry (key : κ) (value : α) (other : κ) (entries : List (κ × α)) :
    (insertEntry key value entries).lookup other
      = if other = key then some value else entries.lookup other := by
  induction entries with
  | nil =>
      by_cases h : other = key
      · simp [insertEntry, h]
      · simp [insertEntry, List.lookup_cons, h, beq_eq_false_iff_ne.mpr h]
  | cons entry rest ih =>
      obtain ⟨k, v⟩ := entry
      by_cases hk : k = key
      · subst hk
        by_cases h : other = k
        · simp [insertEntry, h]
        · simp [insertEntry, List.lookup_cons, h, beq_eq_false_iff_ne.mpr h]
      · by_cases h : other = k
        · subst h
          simp [insertEntry, hk]
        · simp only [insertEntry, if_neg hk, List.lookup_cons, beq_eq_false_iff_ne.mpr h]
          exact ih

/-- After an insertion the key has the new value, and every other key what it had. -/
theorem get?_insert (map : OrderedMap κ α) (key : κ) (value : α) (other : κ) :
    (map.insert key value).get? other = if other = key then some value else map.get? other :=
  lookup_insertEntry key value other map.entries

@[simp] theorem get?_insert_self (map : OrderedMap κ α) (key : κ) (value : α) :
    (map.insert key value).get? key = some value := by
  rw [get?_insert, if_pos rfl]

/-- A key with a value is among the keys. -/
theorem mem_keys {map : OrderedMap κ α} {key : κ} (h : (map.get? key).isSome) :
    key ∈ map.keys := by
  obtain ⟨entry, hentry, hkey⟩ := List.lookup_isSome_iff.mp h
  exact List.mem_map.mpr ⟨entry, hentry, (beq_iff_eq.mp hkey).symm⟩

end OrderedMap

end Stencil
