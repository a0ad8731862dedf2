import Stencil.Proofs.Placement.Account
import Stencil.Proofs.Placement.Spread

/-! # Contents — what lies below a block at the end

    At the end of a chain, the block of a mention holds the contents of those
    mentions that are kept in it, and `kidsOf` lists the nodes and blocks that
    are directly in these.  Bringing a tree to its current state puts them in
    the place of the block, and what lies below them in their place, so that the
    identities in the tree are a spread (`Account.ids_resolveWith`). -/

namespace Stencil.Placement

/-! ## Held mentions -/

namespace Ledger

variable {ledger : Ledger} {i j k : Nat}

open Classical in
/-- The mentions whose contents the block of a mention holds at the end. -/
noncomputable def held (ledger : Ledger) (i : Nat) : List Nat :=
  (List.range ledger.length).filter fun k => ledger.Holds i k

theorem mem_held : k ∈ ledger.held i ↔ ledger.Holds i k := by
  simp only [held, List.mem_filter, List.mem_range, decide_eq_true_eq, and_iff_right_iff_imp]
  exact fun h => h.1

theorem nodup_held : (ledger.held i).Nodup := List.nodup_range.filter _

/-- Without a later repeat, the block of a mention holds what is kept of the name. -/
theorem held_eq_kept
    (h : ∀ j < ledger.length, i < j → ledger.SameName j i → ¬ ledger.Repeats j) :
    ledger.held i = ledger.kept ledger[i]!.name := by
  refine List.filter_congr fun k hk => decide_eq_decide.mpr ?_
  constructor
  · rintro ⟨-, hname, hsurvives, -⟩
    exact ⟨hname.symm, hsurvives⟩
  · rintro ⟨hname, hsurvives⟩
    exact ⟨List.mem_range.mp hk, Eq.symm hname, hsurvives, h⟩

/-- A later repeat leaves the block of a mention empty. -/
theorem held_eq_nil (hj : j < ledger.length) (hij : i < j) (hname : ledger.SameName j i)
    (hrepeats : ledger.Repeats j) : ledger.held i = [] :=
  List.eq_nil_iff_forall_not_mem.mpr fun _ hk =>
    (mem_held.mp hk).2.2.2 j hj hij hname hrepeats

end Ledger

/-! ## Below a block -/

/-- The nodes and the blocks directly in the content of a mention. -/
def contentOf (ledger : Ledger) (slots : Nat → Slot) (k : Nat) : List BlockId :=
  (slots k).plain ++ blocksOf slots ledger[k]!.inside

open Classical in
/-- The nodes and the blocks directly below one that is given by its identity. -/
noncomputable def kidsOf (ledger : Ledger) (slots : Nat → Slot) (id : BlockId) : List BlockId :=
  ((List.range ledger.length).filter fun k =>
    ∃ i < ledger.length, (slots i).block = id ∧ ledger.Holds i k).flatMap (contentOf ledger slots)

theorem mem_kidsOf {ledger : Ledger} {slots : Nat → Slot} {id other : BlockId} :
    other ∈ kidsOf ledger slots id
      ↔ ∃ i < ledger.length, (slots i).block = id
        ∧ ∃ k, ledger.Holds i k ∧ other ∈ contentOf ledger slots k := by
  simp only [kidsOf, List.mem_flatMap, List.mem_filter, List.mem_range, decide_eq_true_eq]
  constructor
  · rintro ⟨k, ⟨-, i, hi, hblock, hholds⟩, hmem⟩
    exact ⟨i, hi, hblock, k, hholds, hmem⟩
  · rintro ⟨i, hi, hblock, k, hholds, hmem⟩
    exact ⟨k, ⟨hholds.1, i, hi, hblock, hholds⟩, hmem⟩

section

variable {owner : Nat} {book : Book} {slots : Nat → Slot} {spare : List BlockId}
  {pending : List Nat} {i k : Nat}

theorem Account.block_recorded (h : Account owner book slots spare pending)
    (hi : i < book.ledger.length) : (book.store.current.get? (slots i).block).isSome := by
  obtain ⟨state, hstate, -⟩ := h.names.recorded i hi
  rw [hstate]
  rfl

/-- No block that was given to a mention is among the nodes of a mention, or spare. -/
theorem Account.unrecorded (h : Account owner book slots spare pending) {id : BlockId}
    (hid : id ∈ spare ++ plainAll slots book.ledger.length) :
    book.store.current.get? id = none :=
  (h.fresh id hid).unrecorded

theorem mem_plainAll {count : Nat} {id : BlockId} (hk : k < count) (hid : id ∈ (slots k).plain) :
    id ∈ plainAll slots count :=
  List.mem_flatMap.mpr ⟨k, List.mem_range.mpr hk, hid⟩

theorem Account.plain_unrecorded (h : Account owner book slots spare pending) {id : BlockId}
    (hk : k < book.ledger.length) (hid : id ∈ (slots k).plain) :
    book.store.current.get? id = none :=
  h.unrecorded (List.mem_append_right _ (mem_plainAll hk hid))

theorem Account.ne_block (h : Account owner book slots spare pending) {id : BlockId}
    (hid : book.store.current.get? id = none) (hi : i < book.ledger.length) :
    (slots i).block ≠ id := by
  intro hsame
  have hsome := h.block_recorded hi
  rw [hsame, hid] at hsome
  exact nomatch hsome

/-- Nothing lies below a node that is no block of a mention. -/
theorem Account.kidsOf_unrecorded (h : Account owner book slots spare pending) {id : BlockId}
    (hid : book.store.current.get? id = none) : kidsOf book.ledger slots id = [] := by
  refine List.eq_nil_iff_forall_not_mem.mpr fun other hother => ?_
  obtain ⟨i, hi, hblock, -⟩ := mem_kidsOf.mp hother
  exact h.ne_block hid hi hblock

/-- Below the block of a mention lie the contents of the mentions it holds. -/
theorem Account.kidsOf_block (h : Account owner book slots spare pending)
    (hi : i < book.ledger.length) :
    kidsOf book.ledger slots (slots i).block
      = (book.ledger.held i).flatMap (contentOf book.ledger slots) := by
  refine congrArg (List.flatMap _) (List.filter_congr fun k hk => decide_eq_decide.mpr ?_)
  constructor
  · rintro ⟨j, hj, hblock, hholds⟩
    exact hholds.of_sameBlock ((h.names.same j i hj hi).mp hblock)
  · exact fun hholds => ⟨i, hi, rfl, hholds⟩

/-! ## What stands in the place of a block -/

/-- The nodes that a block of a mention shows. -/
noncomputable def heldPlain (ledger : Ledger) (slots : Nat → Slot) (i : Nat) : List BlockId :=
  (ledger.held i).flatMap fun k => (slots k).plain

/-- The mentions whose blocks a block of a mention shows. -/
noncomputable def heldInside (ledger : Ledger) (i : Nat) : List Nat :=
  (ledger.held i).flatMap fun k => ledger[k]!.inside

theorem blocksOf_heldInside (ledger : Ledger) (slots : Nat → Slot) (i : Nat) :
    blocksOf slots (heldInside ledger i)
      = (ledger.held i).flatMap fun k => blocksOf slots ledger[k]!.inside :=
  List.map_flatMap

theorem Account.kidsOf_perm (h : Account owner book slots spare pending)
    (hi : i < book.ledger.length) :
    (heldPlain book.ledger slots i ++ blocksOf slots (heldInside book.ledger i)).Perm
      (kidsOf book.ledger slots (slots i).block) := by
  rw [h.kidsOf_block hi, blocksOf_heldInside]
  exact List.flatMap_append_perm _ _ _

/-- What the mentions show that are in a block. -/
theorem Account.shows_held (h : Account owner book slots spare pending) :
    Shows ((book.ledger.held i).flatMap fun k => (slots k).nodes) (heldPlain book.ledger slots i)
      (blocksOf slots (heldInside book.ledger i)) := by
  rw [blocksOf_heldInside]
  exact .flatMap fun k hk => h.shows k (Ledger.mem_held.mp hk).1

/-- **What a block shows.**  The state that is recorded for the block of a mention shows the
    contents of the mentions it holds. -/
theorem Account.exists_state (h : Account owner book slots spare pending)
    (hi : i < book.ledger.length) :
    ∃ state, book.store.current.get? (slots i).block = some state
      ∧ state.id = (slots i).block
      ∧ Shows state.nodes (heldPlain book.ledger slots i)
        (blocksOf slots (heldInside book.ledger i)) := by
  obtain ⟨state, hstate, hkept⟩ := h.names.recorded i hi
  refine ⟨state, hstate, (h.settled.bounded hstate).2, ?_⟩
  cases hname : book.registry.get? book.ledger[i]!.name with
  | none => exact absurd rfl (h.names.unmentioned hname i hi)
  | some definition =>
      have hcurrent := h.names.current hname
      obtain ⟨last, hlast, hlname, hmax, -, hlblock⟩ := hcurrent.last
      have hle : i ≤ last := hmax i hi rfl
      by_cases hsame : definition.block.id = (slots i).block
      · -- the name's block is the mention's, and there is no repeat up to the last mention
        have hrecorded := h.settled.recorded hname
        rw [hsame, hstate] at hrecorded
        have hblock := (h.names.same i last hi hlast).mp (hsame.symm.trans hlblock.symm)
        rw [Option.some.inj hrecorded]
        have hheld := book.ledger.held_eq_kept fun j hj hij hjname =>
          hblock.2 j (by omega) (Nat.le_trans (hmax j hj hjname) (Nat.le_max_right _ _)) hjname
        refine h.shows_held.perm ?_
        rw [hheld]
        exact hcurrent.nodes
      · -- a repeat took the mention's block out of use
        have hempty : state.nodes = [] := by
          rcases hkept with hempty | ⟨other, hother, hid⟩
          · exact hempty
          · rw [Option.some.inj (hname.symm.trans hother)] at hsame
            exact absurd hid hsame
        have hdiffer : ¬ book.ledger.SameBlock i last := fun hblock =>
          hsame (hlblock.symm.trans ((h.names.same i last hi hlast).mpr hblock).symm)
        obtain ⟨j, hlow, hhigh, hjname, hrepeats⟩ : ∃ j, min i last < j ∧ j ≤ max i last
            ∧ book.ledger.SameName j i ∧ book.ledger.Repeats j := by
          by_contra hnone
          exact hdiffer ⟨Eq.symm hlname, fun j hlow hhigh hjname hrepeats =>
            hnone ⟨j, hlow, hhigh, hjname, hrepeats⟩⟩
        have hheld := Ledger.held_eq_nil (by omega) (by omega) hjname hrepeats
        rw [hempty, heldPlain, heldInside, hheld]
        exact shows_nil

/-! ## Trees as spreads -/

theorem Account.heldPlain_unrecorded (h : Account owner book slots spare pending) {id : BlockId}
    (hid : id ∈ heldPlain book.ledger slots i) : book.store.current.get? id = none := by
  obtain ⟨k, hk, hid⟩ := List.mem_flatMap.mp hid
  exact h.plain_unrecorded (Ledger.mem_held.mp hk).1 hid

theorem Account.heldInside_lt (h : Account owner book slots spare pending) {j : Nat}
    (hj : j ∈ heldInside book.ledger i) : j < book.ledger.length := by
  obtain ⟨k, hk, hj⟩ := List.mem_flatMap.mp hj
  exact h.numbers.inside_lt (Ledger.mem_held.mp hk).1 hj

/-- **A tree is a spread.**  Brought to their current state, nodes have the identities of what they
    show and of all that lies below it. -/
theorem Account.ids_resolveWith (h : Account owner book slots spare pending)
    {rank : BlockId → Nat}
    (hrank : ∀ item, ∀ below ∈ kidsOf book.ledger slots item, rank below < rank item)
    (hpos : ∀ i < book.ledger.length, 0 < rank (slots i).block) {fuel : Nat} :
    ∀ {nodes : List Draft} {plain : List BlockId} {numbers : List Nat},
      Shows nodes plain (blocksOf slots numbers) →
        (∀ id ∈ plain, book.store.current.get? id = none) →
          (∀ i ∈ numbers, i < book.ledger.length) →
            (∀ i ∈ numbers, rank (slots i).block ≤ fuel) →
              (Node.ids (nodes.map (book.store.resolveWith fuel))).Perm
                ((spread (kidsOf book.ledger slots) fuel
                  (plain ++ blocksOf slots numbers)).map some) := by
  induction fuel with
  | zero =>
      intro nodes plain numbers hshows hplain hlt hle
      have hnumbers : numbers = [] :=
        List.eq_nil_iff_forall_not_mem.mpr fun i hi => by
          have hzero := hle i hi
          have hone := hpos i (hlt i hi)
          omega
      subst hnumbers
      have hids := hshows (fun _ => none) (fun _ _ => rfl) fun _ hid => nomatch hid
      rw [Store.substituteAll_none] at hids
      rw [Store.map_resolveWith_zero, spread]
      simpa [blocksOf] using hids
  | succ fuel ih =>
      intro nodes plain numbers hshows hplain hlt hle
      have hids := hshows (book.store.currentWith fuel)
        (fun id hid => by rw [Store.currentWith, hplain id hid]; rfl)
        (fun id hid => by
          obtain ⟨i, hi, rfl⟩ := List.mem_map.mp hid
          rw [Store.currentWith, Option.isSome_map]
          exact h.block_recorded (hlt i hi))
      -- what stands in for a block is the block, and what lies below it by induction
      have hblocks : ∀ i ∈ numbers,
          (substituteIds (book.store.currentWith fuel) (slots i).block).Perm
            (((slots i).block :: spread (kidsOf book.ledger slots) fuel
              (kidsOf book.ledger slots (slots i).block)).map some) := by
        intro i hi
        obtain ⟨state, hstate, hid, hstands⟩ := h.exists_state (hlt i hi)
        have hkids := h.kidsOf_perm (hlt i hi)
        have hbelow := ih hstands (fun id => h.heldPlain_unrecorded) (fun j => h.heldInside_lt)
          fun j hj => by
            have hmem : (slots j).block ∈ kidsOf book.ledger slots (slots i).block :=
              hkids.subset (List.mem_append_right _ (List.mem_map_of_mem hj))
            have hless := hrank _ _ hmem
            have hbound := hle i hi
            omega
        rw [substituteIds, Store.currentWith, hstate, Option.map_some, List.map_cons]
        rw [← hid]
        exact (hbelow.trans ((spread_perm fuel (hid ▸ hkids)).map some)).cons _
      have hplainKids : ∀ id ∈ plain, kidsOf book.ledger slots id = [] := fun id hid =>
        h.kidsOf_unrecorded (hplain id hid)
      rw [Store.map_resolveWith_succ, spread_append, spread_of_kids_nil hplainKids,
        List.map_append]
      refine hids.trans (List.Perm.append_left _ ?_)
      rw [spread, blocksOf, List.flatMap_map, List.flatMap_map, List.map_flatMap]
      exact List.Perm.flatMap_left _ hblocks

end

end Stencil.Placement
