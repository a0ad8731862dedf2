import Mathlib.Data.Finset.Card
import Mathlib.Data.List.Nodup
import Mathlib.Data.List.Pairwise
import Mathlib.Data.List.Perm.Basic
import Mathlib.Logic.Relation

/-! # Spreads — the list that shared parts spread out to

    A block that stands in several places is spread out once for each of them.
    `spread` lists what lies in and below a list of roots, where every item may
    have items below it.  When the items below have smaller ranks, so that
    nothing lies below itself, an item occurs once in a spread exactly when
    every item that is reached has one place: among the roots, or once below
    one other item (`nodup_spread_iff`).  Where finitely many items have others
    below them, and none lies below itself, the number of these in and below an
    item is such a rank (`height_lt`). -/

namespace Stencil.Placement

variable {ι : Type} {kids : ι → List ι}

/-- The items of a list, each with the spread of those below it; the fuel bounds the depth. -/
def spread (kids : ι → List ι) : Nat → List ι → List ι
  | 0, items => items
  | fuel + 1, items => items.flatMap fun item => item :: spread kids fuel (kids item)

/-- The items in or below a list of roots. -/
inductive Reached (kids : ι → List ι) (roots : List ι) : ι → Prop where
  | root {item : ι} : item ∈ roots → Reached kids roots item
  | kid {item below : ι} : Reached kids roots item → below ∈ kids item →
      Reached kids roots below

/-- Every item that is reached from the roots has one place. -/
structure OnePlace (kids : ι → List ι) (roots : List ι) : Prop where
  top : roots.Nodup
  inner : ∀ {item}, Reached kids roots item → (kids item).Nodup
  apart : ∀ {item below}, Reached kids roots item → below ∈ kids item → below ∉ roots
  parent : ∀ {item other below}, Reached kids roots item → Reached kids roots other →
    below ∈ kids item → below ∈ kids other → item = other

@[simp] theorem spread_nil (fuel : Nat) : spread kids fuel [] = [] := by
  cases fuel <;> rfl

theorem spread_append (fuel : Nat) (items more : List ι) :
    spread kids fuel (items ++ more) = spread kids fuel items ++ spread kids fuel more := by
  cases fuel with
  | zero => rfl
  | succ fuel => rw [spread, List.flatMap_append, spread, spread]

/-- Without others below them, items are spread out to themselves. -/
theorem spread_of_kids_nil {items : List ι} (h : ∀ item ∈ items, kids item = []) (fuel : Nat) :
    spread kids fuel items = items := by
  cases fuel with
  | zero => rfl
  | succ fuel =>
      rw [spread]
      conv_rhs => rw [← List.flatMap_singleton' items]
      refine List.flatMap_congr fun item hitem => ?_
      rw [h item hitem, spread_nil]

/-- The order of the roots does not matter. -/
theorem spread_perm (fuel : Nat) {items others : List ι} (h : items.Perm others) :
    (spread kids fuel items).Perm (spread kids fuel others) := by
  cases fuel with
  | zero => exact h
  | succ fuel => exact h.flatMap_right _

/-- Where several lists have no item twice among them, two of them have none in common. -/
theorem disjoint_of_nodup_flatMap {α β : Type} (parts : α → List β) {items : List α}
    {item other : α} (h : (items.flatMap parts).Nodup) (hitem : item ∈ items)
    (hother : other ∈ items) (hne : item ≠ other) : (parts item).Disjoint (parts other) := by
  have hsymm : Std.Symm (Function.onFun List.Disjoint parts) :=
    ⟨fun _ _ h part hpart hsame => h hsame hpart⟩
  exact (List.nodup_flatMap.mp h).2.forall hitem hother hne

theorem Reached.trans {roots items : List ι} {item : ι} (h : Reached kids items item)
    (hitems : ∀ i ∈ items, Reached kids roots i) : Reached kids roots item := by
  induction h with
  | root hmem => exact hitems _ hmem
  | kid _ hbelow ih => exact .kid ih hbelow

/-- What is reached from some of the roots is reached from all of them. -/
theorem Reached.of_mem {roots : List ι} {root item : ι} (hroot : root ∈ roots)
    (h : Reached kids [root] item) : Reached kids roots item :=
  h.trans fun _ hi => .root (List.mem_singleton.mp hi ▸ hroot)

theorem Reached.of_kids {roots : List ι} {root item : ι} (hroot : Reached kids roots root)
    (h : Reached kids (kids root) item) : Reached kids roots item :=
  h.trans fun _ hi => .kid hroot hi

/-- What is reached is a root, or is reached from the items below one. -/
theorem reached_iff {roots : List ι} {item : ι} :
    Reached kids roots item ↔ ∃ root ∈ roots, item = root ∨ Reached kids (kids root) item := by
  constructor
  · intro h
    induction h with
    | root hmem => exact ⟨_, hmem, .inl rfl⟩
    | kid _ hbelow ih =>
        obtain ⟨root, hroot, rfl | hr⟩ := ih
        · exact ⟨_, hroot, .inr (.root hbelow)⟩
        · exact ⟨root, hroot, .inr (hr.kid hbelow)⟩
  · rintro ⟨root, hroot, rfl | hr⟩
    · exact .root hroot
    · exact .of_kids (.root hroot) hr

theorem reached_singleton {root item : ι} :
    Reached kids [root] item ↔ item = root ∨ Reached kids (kids root) item := by
  rw [reached_iff]
  simp

/-- Two roots have nothing in common below them when every item has one place. -/
theorem OnePlace.root_eq {roots : List ι} (h : OnePlace kids roots) {root other item : ι}
    (hroot : root ∈ roots) (hother : other ∈ roots) (hitem : Reached kids [root] item)
    (hsame : Reached kids [other] item) : root = other := by
  induction hitem with
  | root hmem =>
      have hi := List.mem_singleton.mp hmem
      subst hi
      cases hsame with
      | root hmem => exact List.mem_singleton.mp hmem
      | kid hup hbelow => exact absurd hroot (h.apart (hup.of_mem hother) hbelow)
  | kid hup hbelow ih =>
      cases hsame with
      | root hmem =>
          rw [List.mem_singleton.mp hmem] at hbelow
          exact absurd hother (h.apart (hup.of_mem hroot) hbelow)
      | kid hup' hbelow' =>
          have hsame := h.parent (hup.of_mem hroot) (hup'.of_mem hother) hbelow hbelow'
          exact ih (hsame ▸ hup')

section Ranked

variable {rank : ι → Nat} (hrank : ∀ item, ∀ below ∈ kids item, rank below < rank item)

include hrank

/-- Nothing that is reached ranks above all roots. -/
theorem Reached.rank_le {roots : List ι} {item : ι} {bound : Nat}
    (h : Reached kids roots item) (hroots : ∀ root ∈ roots, rank root ≤ bound) :
    rank item ≤ bound := by
  induction h with
  | root hmem => exact hroots _ hmem
  | kid _ hbelow ih => exact Nat.le_of_lt (Nat.lt_of_lt_of_le (hrank _ _ hbelow) ih)

/-- What is reached from the items below another ranks below it. -/
theorem Reached.rank_lt {root item : ι} (h : Reached kids (kids root) item) :
    rank item < rank root := by
  induction h with
  | root hmem => exact hrank _ _ hmem
  | kid _ hbelow ih => exact Nat.lt_trans (hrank _ _ hbelow) ih

theorem kids_of_rank_zero {item : ι} (h : rank item = 0) : kids item = [] := by
  refine List.eq_nil_iff_forall_not_mem.mpr fun below hbelow => ?_
  have hlt := hrank item below hbelow
  omega

/-- A spread lists what is reached. -/
theorem mem_spread {fuel : Nat} : ∀ {roots : List ι} {item : ι},
    (∀ root ∈ roots, rank root ≤ fuel) →
      (item ∈ spread kids fuel roots ↔ Reached kids roots item) := by
  induction fuel with
  | zero =>
      intro roots item hroots
      constructor
      · exact .root
      · intro h
        obtain ⟨root, hroot, rfl | hr⟩ := reached_iff.mp h
        · exact hroot
        · -- nothing lies below a root of rank zero
          have hlt := hr.rank_lt hrank
          have hle := hroots root hroot
          omega
  | succ fuel ih =>
      intro roots item hroots
      have hkids : ∀ root ∈ roots, ∀ kid ∈ kids root, rank kid ≤ fuel := by
        intro root hroot kid hkid
        have hlt := hrank root kid hkid
        have hle := hroots root hroot
        omega
      rw [spread, List.mem_flatMap, reached_iff]
      refine exists_congr fun root => and_congr_right fun hroot => ?_
      rw [List.mem_cons, ih (hkids root hroot)]

/-- The items below one that is reached have one place each. -/
theorem OnePlace.below {roots : List ι} (h : OnePlace kids roots) {root : ι}
    (hroot : Reached kids roots root) : OnePlace kids (kids root) where
  top := h.inner hroot
  inner := fun hr => h.inner (.of_kids hroot hr)
  apart := by
    intro item below hr hbelow hmem
    have hsame := h.parent (.of_kids hroot hr) hroot hbelow hmem
    have hlt := hr.rank_lt hrank
    rw [hsame] at hlt
    omega
  parent := fun hr hr' => h.parent (.of_kids hroot hr) (.of_kids hroot hr')

/-- Every item has one place when it has one below each root, and no two roots reach the same
    item. -/
theorem onePlace_of_roots {roots : List ι} (hbelow : ∀ root ∈ roots, OnePlace kids (kids root))
    (hnodup : roots.Nodup)
    (hroots : ∀ {root other item}, root ∈ roots → other ∈ roots → Reached kids [root] item →
      Reached kids [other] item → root = other) : OnePlace kids roots := by
  have hup : ∀ {item}, Reached kids roots item → ∃ root ∈ roots, Reached kids [root] item := by
    intro item h
    obtain ⟨root, hroot, hr⟩ := reached_iff.mp h
    exact ⟨root, hroot, reached_singleton.mpr hr⟩
  constructor
  case top => exact hnodup
  case inner =>
    intro item h
    obtain ⟨root, hroot, rfl | hr⟩ := reached_iff.mp h
    · exact (hbelow _ hroot).top
    · exact (hbelow root hroot).inner hr
  case apart =>
    intro item below h hkid hmem
    obtain ⟨root, hroot, hr⟩ := hup h
    -- the root itself would lie below the root that leads to it
    have hsame := hroots hroot hmem (hr.kid hkid) (.root (List.mem_singleton_self below))
    have hle : rank item ≤ rank root := hr.rank_le hrank (by simp)
    have hlt := hrank item below hkid
    rw [hsame] at hle
    omega
  case parent =>
    intro item other below h h' hkid hkid'
    obtain ⟨root, hroot, hr⟩ := hup h
    obtain ⟨root', hroot', hr'⟩ := hup h'
    have hsame := hroots hroot hroot' (hr.kid hkid) (hr'.kid hkid')
    subst hsame
    rcases reached_singleton.mp hr with rfl | hr <;> rcases reached_singleton.mp hr' with rfl | hr'
    · rfl
    · exact absurd hkid ((hbelow _ hroot).apart hr' hkid')
    · exact absurd hkid' ((hbelow _ hroot).apart hr hkid)
    · exact (hbelow root hroot).parent hr hr' hkid hkid'

/-- **One place each.**  A spread has no item twice exactly when every item that is reached has one
    place. -/
theorem nodup_spread_iff {fuel : Nat} : ∀ {roots : List ι}, (∀ root ∈ roots, rank root ≤ fuel) →
    ((spread kids fuel roots).Nodup ↔ OnePlace kids roots) := by
  induction fuel with
  | zero =>
      intro roots hroots
      -- without fuel there are only roots: everything that is reached has rank zero
      have hkids : ∀ {item}, Reached kids roots item → kids item = [] := fun h =>
        kids_of_rank_zero hrank (Nat.le_zero.mp (h.rank_le hrank hroots))
      constructor
      · intro hnodup
        refine ⟨hnodup, fun h => hkids h ▸ List.nodup_nil, ?_, ?_⟩
        · intro item below h hbelow
          simp [hkids h] at hbelow
        · intro item other below h _ hbelow
          simp [hkids h] at hbelow
      · exact OnePlace.top
  | succ fuel ih =>
      intro roots hroots
      have hkids : ∀ root ∈ roots, ∀ kid ∈ kids root, rank kid ≤ fuel := by
        intro root hroot kid hkid
        have hlt := hrank root kid hkid
        have hle := hroots root hroot
        omega
      have hmem : ∀ root ∈ roots, ∀ item,
          item ∈ root :: spread kids fuel (kids root) ↔ Reached kids [root] item := by
        intro root hroot item
        rw [List.mem_cons, mem_spread hrank (hkids root hroot), reached_singleton]
      constructor
      · intro hnodup
        obtain ⟨heach, hapart⟩ := List.nodup_flatMap.mp hnodup
        have hdistinct : roots.Nodup := by
          refine hapart.imp_of_mem fun {root other} hroot hother hdisjoint hsame => ?_
          exact hdisjoint List.mem_cons_self (hsame ▸ List.mem_cons_self)
        refine onePlace_of_roots hrank (fun root hroot => ?_) hdistinct ?_
        · exact (ih (hkids root hroot)).mp (List.nodup_cons.mp (heach root hroot)).2
        · intro root other item hroot hother hitem hsame
          by_contra hne
          exact disjoint_of_nodup_flatMap _ hnodup hroot hother hne
            ((hmem root hroot item).mpr hitem) ((hmem other hother item).mpr hsame)
      · intro h
        refine List.nodup_flatMap.mpr ⟨fun root hroot => List.nodup_cons.mpr ⟨?_, ?_⟩, ?_⟩
        · -- an item below itself would have a smaller rank than it has
          rw [mem_spread hrank (hkids root hroot)]
          intro hr
          exact Nat.lt_irrefl _ (hr.rank_lt hrank)
        · exact (ih (hkids root hroot)).mpr (h.below hrank (.root hroot))
        · refine h.top.imp_of_mem fun {root other} hroot hother hne item hitem hsame => hne ?_
          exact h.root_eq hroot hother ((hmem root hroot item).mp hitem)
            ((hmem other hother item).mp hsame)

end Ranked

/-! ## A rank -/

/-- The second item lies directly below the first one. -/
def Below (kids : ι → List ι) (item below : ι) : Prop := below ∈ kids item

open Classical in
/-- Those of some items that lie in and below an item. -/
noncomputable def inAndBelow (kids : ι → List ι) (items : Finset ι) (item : ι) : Finset ι :=
  items.filter fun other => Relation.ReflTransGen (Below kids) item other

theorem mem_inAndBelow {items : Finset ι} {item other : ι} :
    other ∈ inAndBelow kids items item
      ↔ other ∈ items ∧ Relation.ReflTransGen (Below kids) item other := by
  simp [inAndBelow]

/-- How many of some items lie in and below an item. -/
noncomputable def height (kids : ι → List ι) (items : Finset ι) (item : ι) : Nat :=
  (inAndBelow kids items item).card

theorem height_le (items : Finset ι) (item : ι) : height kids items item ≤ items.card :=
  Finset.card_le_card fun _ hother => (mem_inAndBelow.mp hother).1

theorem height_pos {items : Finset ι} {item : ι} (h : item ∈ items) :
    0 < height kids items item :=
  Finset.card_pos.mpr ⟨item, mem_inAndBelow.mpr ⟨h, .refl⟩⟩

/-- An item with others below it, but not itself, ranks above them. -/
theorem height_lt {items : Finset ι} {item below : ι} (hitem : item ∈ items)
    (hacyclic : ¬ Relation.TransGen (Below kids) item item) (hbelow : below ∈ kids item) :
    height kids items below < height kids items item := by
  have hsubset : inAndBelow kids items below ⊆ inAndBelow kids items item := by
    intro other hother
    obtain ⟨hmem, hpath⟩ := mem_inAndBelow.mp hother
    exact mem_inAndBelow.mpr ⟨hmem, .head hbelow hpath⟩
  refine Finset.card_lt_card ((Finset.ssubset_iff_of_subset hsubset).mpr ⟨item, ?_, ?_⟩)
  · exact mem_inAndBelow.mpr ⟨hitem, .refl⟩
  · intro hself
    exact hacyclic (.head' hbelow (mem_inAndBelow.mp hself).2)

end Stencil.Placement
