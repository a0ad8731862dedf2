import Stencil.Proofs.Placement.Chain
import Stencil.Proofs.Placement.Contents
import Stencil.Proofs.Placement.Untangled

/-! # Once — when every node of a chain's tree stands in one place

    The tree of a chain is a spread of the nodes and blocks in it
    (`Account.ids_resolveWith`), so that no node stands in two places exactly
    when each has one place (`nodup_spread_iff`).  A node that is no block is in
    the content of one mention alone, but two mentions may be given one block:
    a node stands in two places exactly when the tree has two such mentions
    (`nodup_identities_iff`).  That happens: an override may keep a block inside
    of it that the layout has elsewhere. -/

namespace Stencil

namespace Placement

open Relation Store Parse

/-- Two blocks that hold the same mention are one. -/
theorem Ledger.Holds.sameBlock {ledger : Ledger} {i j k : Nat} (hi : i < ledger.length)
    (hj : j < ledger.length) (h : ledger.Holds i k) (hother : ledger.Holds j k) :
    ledger.SameBlock i j := by
  obtain ⟨-, hname, -, hlast⟩ := h
  obtain ⟨-, hname', -, hlast'⟩ := hother
  have hsame : ledger.SameName i j := hname.trans hname'.symm
  refine ⟨hsame, fun l hlow hhigh hl => ?_⟩
  rcases Nat.le_total i j with hij | hji
  · exact hlast l (by omega) (by omega) hl
  · exact hlast' l (by omega) (by omega) (hl.trans hsame)

section

variable {owner : Nat} {book : Book} {slots : Nat → Slot} {spare top : List BlockId}
  {pending tops : List Nat}

/-! ## A rank for the tree -/

/-- A block below another one was given to a mention that the other one's encloses. -/
theorem Account.exists_encloses (h : Account owner book slots spare pending) {id other : BlockId}
    (hbelow : other ∈ kidsOf book.ledger slots id)
    (hother : (book.store.current.get? other).isSome) :
    ∃ i < book.ledger.length, ∃ j < book.ledger.length, (slots i).block = id
      ∧ (slots j).block = other ∧ book.ledger.Encloses i j := by
  obtain ⟨i, hi, hblock, k, hholds, hmem⟩ := mem_kidsOf.mp hbelow
  rcases List.mem_append.mp hmem with hplain | hinside
  · rw [h.plain_unrecorded hholds.1 hplain] at hother
    exact nomatch hother
  · obtain ⟨j, hj, rfl⟩ := List.mem_map.mp hinside
    exact ⟨i, hi, j, h.numbers.inside_lt hholds.1 hj, hblock, rfl, k, hholds, hj⟩

/-- A block somewhere below another one was given to a mention below that of the other one. -/
theorem Account.transGen_encloses (h : Account owner book slots spare pending) {id other : BlockId}
    (hpath : TransGen (Below (kidsOf book.ledger slots)) id other)
    (hother : (book.store.current.get? other).isSome) :
    ∃ i < book.ledger.length, ∃ j < book.ledger.length, (slots i).block = id
      ∧ (slots j).block = other ∧ TransGen book.ledger.Encloses i j := by
  induction hpath with
  | single hbelow =>
      obtain ⟨i, hi, j, hj, hblock, hjblock, hencloses⟩ := h.exists_encloses hbelow hother
      exact ⟨i, hi, j, hj, hblock, hjblock, .single hencloses⟩
  | tail _ hbelow ih =>
      obtain ⟨m, hm, j, hj, hblock, hjblock, k, hholds, hmem⟩ := h.exists_encloses hbelow hother
      obtain ⟨i, hi, l, hl, hiblock, hlblock, hup⟩ := ih (hblock ▸ h.block_recorded hm)
      have hsame := (h.names.same m l hm hl).mp (hblock.trans hlblock.symm)
      exact ⟨i, hi, j, hj, hiblock, hjblock, hup.tail ⟨k, hholds.of_sameBlock hsame, hmem⟩⟩

/-- Where something lies below it, there is the block of a mention. -/
theorem Account.recorded_of_kid (h : Account owner book slots spare pending) {id other : BlockId}
    (hbelow : other ∈ kidsOf book.ledger slots id) : (book.store.current.get? id).isSome := by
  obtain ⟨i, hi, rfl, -⟩ := mem_kidsOf.mp hbelow
  exact h.block_recorded hi

/-- Nothing lies below itself where no named block ends up inside itself. -/
theorem Account.not_below_self (h : Account owner book slots spare pending)
    (hacyclic : book.ledger.Acyclic) (id : BlockId) :
    ¬ TransGen (Below (kidsOf book.ledger slots)) id id := by
  intro hcycle
  obtain ⟨other, hbelow, -⟩ := TransGen.head'_iff.mp hcycle
  obtain ⟨i, hi, j, hj, hiblock, hjblock, hpath⟩ :=
    h.transGen_encloses hcycle (h.recorded_of_kid hbelow)
  exact hacyclic i j hpath ((h.names.same i j hi hj).mp (hiblock.trans hjblock.symm))

/-- How many blocks of the store lie in and below one. -/
noncomputable def rankIn (book : Book) (slots : Nat → Slot) (id : BlockId) : Nat :=
  height (kidsOf book.ledger slots) book.store.current.keys.toFinset id

theorem mem_blocks {id : BlockId} (h : (book.store.current.get? id).isSome) :
    id ∈ book.store.current.keys.toFinset :=
  List.mem_toFinset.mpr (OrderedMap.mem_keys h)

theorem Account.rankIn_lt (h : Account owner book slots spare pending)
    (hacyclic : book.ledger.Acyclic) (id : BlockId) :
    ∀ other ∈ kidsOf book.ledger slots id, rankIn book slots other < rankIn book slots id :=
  fun _ hbelow =>
    height_lt (mem_blocks (h.recorded_of_kid hbelow)) (h.not_below_self hacyclic id) hbelow

theorem rankIn_le (id : BlockId) : rankIn book slots id ≤ book.store.current.size := by
  refine Nat.le_trans (height_le _ id) (Nat.le_trans (List.toFinset_card_le _) ?_)
  rw [OrderedMap.keys, List.length_map, OrderedMap.size]

/-! ## Contents of live mentions -/

variable (h : Account owner book slots (top ++ spare) (pending ++ tops))

include h

theorem Account.live_lt {i : Nat} (hi : book.ledger.Live tops i) : i < book.ledger.length := by
  cases hi with
  | top htop =>
      exact h.numbers.bounded i (List.mem_append_left _ (List.mem_append_right _ htop))
  | inside _ hencloses =>
      obtain ⟨k, hholds, hmem⟩ := hencloses
      exact h.numbers.inside_lt hholds.1 hmem

theorem Account.top_unrecorded {id : BlockId} (hid : id ∈ top) :
    book.store.current.get? id = none :=
  h.unrecorded (List.mem_append_left _ (List.mem_append_left _ hid))

/-- What is reached from the roots is the block of a live mention, or no block of a mention. -/
theorem Account.live_of_reached {id : BlockId}
    (hid : Reached (kidsOf book.ledger slots) (top ++ blocksOf slots tops) id) :
    book.store.current.get? id = none ∨ ∃ i, book.ledger.Live tops i ∧ (slots i).block = id := by
  induction hid with
  | root hmem =>
      rcases List.mem_append.mp hmem with htop | hblock
      · exact Or.inl (h.top_unrecorded htop)
      · obtain ⟨i, hi, rfl⟩ := List.mem_map.mp hblock
        exact Or.inr ⟨i, .top hi, rfl⟩
  | @kid item below _ hbelow ih =>
      obtain ⟨m, hm, rfl, k, hholds, hmem⟩ := mem_kidsOf.mp hbelow
      rcases List.mem_append.mp hmem with hplain | hinside
      · exact Or.inl (h.plain_unrecorded hholds.1 hplain)
      · obtain ⟨j, hj, rfl⟩ := List.mem_map.mp hinside
        rcases ih with hnone | ⟨i, hlive, hblock⟩
        · exact absurd rfl (h.ne_block hnone hm)
        · have hsame := (h.names.same m i hm (h.live_lt hlive)).mp hblock.symm
          exact Or.inr ⟨j, hlive.inside ⟨k, hholds.of_sameBlock hsame, hj⟩, rfl⟩

/-- What lies below something that is reached is in the content of a mention that the block of a
    live one holds. -/
theorem Account.of_kid {id other : BlockId}
    (hid : Reached (kidsOf book.ledger slots) (top ++ blocksOf slots tops) id)
    (hother : other ∈ kidsOf book.ledger slots id) :
    ∃ i k, book.ledger.Live tops i ∧ (slots i).block = id ∧ book.ledger.Holds i k
      ∧ other ∈ contentOf book.ledger slots k := by
  obtain ⟨m, hm, rfl, k, hholds, hmem⟩ := mem_kidsOf.mp hother
  rcases h.live_of_reached hid with hnone | ⟨i, hlive, hblock⟩
  · exact absurd rfl (h.ne_block hnone hm)
  · have hsame := (h.names.same m i hm (h.live_lt hlive)).mp hblock.symm
    exact ⟨i, k, hlive, hblock, hholds.of_sameBlock hsame, hmem⟩

/-- The block of a live mention is reached. -/
theorem Account.reached_of_live {i : Nat} (hi : book.ledger.Live tops i) :
    Reached (kidsOf book.ledger slots) (top ++ blocksOf slots tops) (slots i).block := by
  induction hi with
  | top hmem => exact .root (List.mem_append_right _ (List.mem_map_of_mem hmem))
  | @inside i j hlive hencloses ih =>
      obtain ⟨k, hholds, hmem⟩ := hencloses
      refine ih.kid (mem_kidsOf.mpr ⟨i, h.live_lt hlive, rfl, k, hholds, ?_⟩)
      exact List.mem_append_right _ (List.mem_map_of_mem hmem)

/-! ## One place for every node -/

theorem Account.nodup_inside_all :
    ((List.range book.ledger.length).flatMap fun k => book.ledger[k]!.inside).Nodup := by
  have hledger : book.ledger = (List.range book.ledger.length).map fun k => book.ledger[k]! := by
    refine List.ext_getElem (by simp) fun k hk _ => ?_
    rw [List.getElem_map, List.getElem_range, getElem!_pos book.ledger k hk]
  have hall := (List.nodup_append'.mp h.numbers.distinct).2.1
  have hflat := congrArg (List.flatMap Mention.inside) hledger
  rw [List.flatMap_map] at hflat
  exact hflat ▸ hall

theorem Account.nodup_plain_all :
    ((List.range book.ledger.length).flatMap fun k => (slots k).plain).Nodup :=
  (List.nodup_append'.mp h.distinct).2.1

theorem Account.top_disjoint {k : Nat} (hk : k < book.ledger.length) :
    tops.Disjoint book.ledger[k]!.inside := by
  intro j htop hinside
  have hmem : j ∈ book.ledger.flatMap Mention.inside := Ledger.mem_inside hk hinside
  exact (List.disjoint_of_nodup_append h.numbers.distinct) (List.mem_append_right _ htop) hmem

/-- Nodes of their own and blocks of live mentions are different, if no two live mentions share a
    block. -/
theorem Account.nodup_part (honce : book.ledger.PlacedOnce tops) {plain : List BlockId}
    {numbers : List Nat} (hplain : plain.Nodup)
    (hnone : ∀ id ∈ plain, book.store.current.get? id = none) (hnumbers : numbers.Nodup)
    (hlive : ∀ i ∈ numbers, book.ledger.Live tops i) :
    (plain ++ blocksOf slots numbers).Nodup := by
  refine List.nodup_append'.mpr ⟨hplain, ?_, ?_⟩
  · refine List.Nodup.map_on (fun i hi j hj hsame => ?_) hnumbers
    exact honce i j (hlive i hi) (hlive j hj)
      ((h.names.same i j (h.live_lt (hlive i hi)) (h.live_lt (hlive j hj))).mp hsame)
  · intro id hid hblock
    obtain ⟨i, hi, rfl⟩ := List.mem_map.mp hblock
    exact h.ne_block (hnone _ hid) (h.live_lt (hlive i hi)) rfl

/-- Two parts of the tree have nothing in common, if no two live mentions share a block. -/
theorem Account.disjoint_parts (honce : book.ledger.PlacedOnce tops) {plain others : List BlockId}
    {numbers more : List Nat} (hplain : plain.Disjoint others)
    (hnone : ∀ id ∈ plain ++ others, book.store.current.get? id = none)
    (hnumbers : numbers.Disjoint more)
    (hlive : ∀ i ∈ numbers ++ more, book.ledger.Live tops i) :
    (plain ++ blocksOf slots numbers).Disjoint (others ++ blocksOf slots more) := by
  intro id hid hother
  rcases List.mem_append.mp hid with hown | hblock <;>
    rcases List.mem_append.mp hother with hown' | hblock'
  · exact hplain hown hown'
  · -- a node is not the block of a mention
    obtain ⟨j, hj, rfl⟩ := List.mem_map.mp hblock'
    exact h.ne_block (hnone _ (List.mem_append_left _ hown))
      (h.live_lt (hlive j (List.mem_append_right _ hj))) rfl
  · obtain ⟨i, hi, rfl⟩ := List.mem_map.mp hblock
    exact h.ne_block (hnone _ (List.mem_append_right _ hown'))
      (h.live_lt (hlive i (List.mem_append_left _ hi))) rfl
  · -- two mentions with one block would be one mention, which is in one of the parts only
    obtain ⟨i, hi, rfl⟩ := List.mem_map.mp hblock
    obtain ⟨j, hj, hsame⟩ := List.mem_map.mp hblock'
    have hilive := hlive i (List.mem_append_left _ hi)
    have hjlive := hlive j (List.mem_append_right _ hj)
    have heq := honce j i hjlive hilive
      ((h.names.same j i (h.live_lt hjlive) (h.live_lt hilive)).mp hsame)
    exact hnumbers hi (heq ▸ hj)

/-- The contents of two mentions that are held by blocks in the tree have nothing in common. -/
theorem Account.disjoint_contents (honce : book.ledger.PlacedOnce tops) {i j k l : Nat}
    (hi : book.ledger.Live tops i) (hj : book.ledger.Live tops j) (hk : book.ledger.Holds i k)
    (hl : book.ledger.Holds j l) (hne : k ≠ l) :
    (contentOf book.ledger slots k).Disjoint (contentOf book.ledger slots l) := by
  have hkmem := List.mem_range.mpr hk.1
  have hlmem := List.mem_range.mpr hl.1
  refine h.disjoint_parts honce ?_ ?_ ?_ ?_
  · exact disjoint_of_nodup_flatMap (fun m => (slots m).plain) h.nodup_plain_all hkmem hlmem hne
  · intro id hid
    rcases List.mem_append.mp hid with hid | hid
    · exact h.plain_unrecorded hk.1 hid
    · exact h.plain_unrecorded hl.1 hid
  · exact disjoint_of_nodup_flatMap (fun m => book.ledger[m]!.inside) h.nodup_inside_all hkmem
      hlmem hne
  · intro m hm
    rcases List.mem_append.mp hm with hm | hm
    · exact hi.inside ⟨k, hk, hm⟩
    · exact hj.inside ⟨l, hl, hm⟩

/-- Everything has one place if no two live mentions share a block. -/
theorem Account.onePlace (honce : book.ledger.PlacedOnce tops) :
    OnePlace (kidsOf book.ledger slots) (top ++ blocksOf slots tops) where
  top := by
    have hfirst := (List.nodup_append'.mp (List.nodup_append'.mp h.distinct).1).1
    have htops := (List.nodup_append'.mp (List.nodup_append'.mp h.numbers.distinct).1).2.1
    exact h.nodup_part honce hfirst (fun id => h.top_unrecorded) htops fun i => .top
  inner := by
    intro item hitem
    rcases h.live_of_reached hitem with hnone | ⟨i, hlive, rfl⟩
    · rw [h.kidsOf_unrecorded hnone]
      exact List.nodup_nil
    · rw [h.kidsOf_block (h.live_lt hlive), List.nodup_flatMap]
      refine ⟨fun k hk => ?_, Ledger.nodup_held.imp_of_mem fun hk hl hne => ?_⟩
      · have hholds := Ledger.mem_held.mp hk
        have hmem := List.mem_range.mpr hholds.1
        have hplain := (List.nodup_flatMap.mp h.nodup_plain_all).1 k hmem
        have hinside := (List.nodup_flatMap.mp h.nodup_inside_all).1 k hmem
        exact h.nodup_part honce hplain (fun id => h.plain_unrecorded hholds.1) hinside
          fun j hj => hlive.inside ⟨k, hholds, hj⟩
      · exact h.disjoint_contents honce hlive hlive (Ledger.mem_held.mp hk)
          (Ledger.mem_held.mp hl) hne
  apart := by
    intro item below hitem hbelow hroot
    obtain ⟨i, k, hlive, -, hholds, hmem⟩ := h.of_kid hitem hbelow
    -- the roots and the content of a mention are two parts of the tree
    refine h.disjoint_parts honce ?_ ?_ (h.top_disjoint hholds.1) ?_ hroot hmem
    · intro id htop hplain
      exact List.disjoint_of_nodup_append h.distinct (List.mem_append_left _ htop)
        (mem_plainAll hholds.1 hplain)
    · intro id hid
      rcases List.mem_append.mp hid with hid | hid
      · exact h.top_unrecorded hid
      · exact h.plain_unrecorded hholds.1 hid
    · intro m hm
      rcases List.mem_append.mp hm with hm | hm
      · exact .top hm
      · exact hlive.inside ⟨k, hholds, hm⟩
  parent := by
    intro item other below hitem hother hbelow hbelow'
    obtain ⟨i, k, hi, rfl, hk, hmem⟩ := h.of_kid hitem hbelow
    obtain ⟨j, l, hj, rfl, hl, hmem'⟩ := h.of_kid hother hbelow'
    -- the contents of different mentions have nothing in common
    have hsame : k = l := by
      by_contra hne
      exact h.disjoint_contents honce hi hj hk hl hne hmem hmem'
    subst hsame
    exact (h.names.same i j (h.live_lt hi) (h.live_lt hj)).mpr
      (hk.sameBlock (h.live_lt hi) (h.live_lt hj) hl)

/-- The content of a mention in the tree lies below the block that holds it. -/
theorem Account.kid_of_holds {i j k : Nat} (hi : book.ledger.Live tops i)
    (hk : book.ledger.Holds i k) (hj : j ∈ book.ledger[k]!.inside) :
    (slots j).block ∈ kidsOf book.ledger slots (slots i).block :=
  mem_kidsOf.mpr ⟨i, h.live_lt hi, rfl, k, hk, List.mem_append_right _ (List.mem_map_of_mem hj)⟩

/-- No two live mentions share a block if everything has one place. -/
theorem Account.placedOnce
    (hone : OnePlace (kidsOf book.ledger slots) (top ++ blocksOf slots tops)) :
    book.ledger.PlacedOnce tops := by
  intro i j hi hj hsame
  have hblock := (h.names.same i j (h.live_lt hi) (h.live_lt hj)).mpr hsame
  have hroot : ∀ {m}, m ∈ tops → (slots m).block ∈ top ++ blocksOf slots tops := fun hm =>
    List.mem_append_right _ (List.mem_map_of_mem hm)
  cases hi with
  | top hitop =>
      cases hj with
      | top hjtop =>
          exact List.inj_on_of_nodup_map (List.nodup_append'.mp hone.top).2.1 hitop hjtop hblock
      | inside hlive hencloses =>
          obtain ⟨k, hk, hmem⟩ := hencloses
          exact absurd (hblock ▸ hroot hitop)
            (hone.apart (h.reached_of_live hlive) (h.kid_of_holds hlive hk hmem))
  | @inside m _ hlive hencloses =>
      obtain ⟨k, hk, hmem⟩ := hencloses
      have hkid := h.kid_of_holds hlive hk hmem
      cases hj with
      | top hjtop =>
          exact absurd (hblock.symm ▸ hroot hjtop) (hone.apart (h.reached_of_live hlive) hkid)
      | @inside n _ hlive' hencloses' =>
          obtain ⟨l, hl, hmem'⟩ := hencloses'
          -- both lie below one block, and there in the content of one mention
          have hup := hone.parent (h.reached_of_live hlive) (h.reached_of_live hlive') hkid
            (hblock.symm ▸ h.kid_of_holds hlive' hl hmem')
          have hheld := hl.of_sameBlock
            ((h.names.same n m (h.live_lt hlive') (h.live_lt hlive)).mp hup.symm)
          have hnodup := hone.inner (h.reached_of_live hlive)
          rw [h.kidsOf_block (h.live_lt hlive)] at hnodup
          have hcontent : ∀ {a b}, a ∈ book.ledger[b]!.inside →
              (slots a).block ∈ contentOf book.ledger slots b := fun ha =>
            List.mem_append_right _ (List.mem_map_of_mem ha)
          have hkl : k = l := by
            by_contra hne
            exact disjoint_of_nodup_flatMap _ hnodup (Ledger.mem_held.mpr hk)
              (Ledger.mem_held.mpr hheld) hne (hcontent hmem) (hblock.symm ▸ hcontent hmem')
          subst hkl
          have hpart := (List.nodup_flatMap.mp hnodup).1 k (Ledger.mem_held.mpr hk)
          exact List.inj_on_of_nodup_map (List.nodup_append'.mp hpart).2.1 hmem hmem' hblock

end

/-! ## Chains of layouts -/

section

variable {owner : Nat} {book : Book} {slots : Nat → Slot} {spare plain : List BlockId}
  {pending tops : List Nat} {root : Block BlockId Draft}
  (h : Account owner book slots (root.id :: plain ++ spare) (pending ++ tops))
  (hshows : Shows root.nodes plain (blocksOf slots tops)) (hacyclic : book.ledger.Acyclic)

include h hshows hacyclic

/-- The identities in the tree are a spread of the root and what it shows. -/
theorem Account.identities_perm :
    (identities (book.store.resolve (.ofBlock root))).Perm
      ((spread (kidsOf book.ledger slots) (book.store.current.size + 1)
        (root.id :: plain ++ blocksOf slots tops)).map some) := by
  have hchildren : Shows ([] ++ (Node.ofBlock root).children) plain (blocksOf slots tops) := hshows
  have hroot : Shows [.ofBlock root] (root.id :: plain) (blocksOf slots tops) :=
    hchildren.wrap rfl
  have hids := h.ids_resolveWith (h.rankIn_lt hacyclic)
    (fun i hi => height_pos (mem_blocks (h.block_recorded hi))) hroot
    (fun id => h.top_unrecorded) (fun i hi => h.live_lt (.top hi))
    fun i _ => Nat.le_succ_of_le (rankIn_le _)
  rwa [List.map_singleton, Node.ids_singleton, ← identities_eq] at hids

theorem Account.nodup_identities_iff_placedOnce :
    (identities (book.store.resolve (.ofBlock root))).Nodup ↔ book.ledger.PlacedOnce tops := by
  have hspread : (spread (kidsOf book.ledger slots) (book.store.current.size + 1)
        (root.id :: plain ++ blocksOf slots tops)).Nodup ↔ _ :=
    nodup_spread_iff (h.rankIn_lt hacyclic) fun id _ => Nat.le_succ_of_le (rankIn_le id)
  rw [(h.identities_perm hshows hacyclic).nodup_iff,
    List.nodup_map_iff (Option.some_injective BlockId), hspread]
  exact ⟨h.placedOnce, h.onePlace⟩

end

/-! ## Acyclic ledgers -/

/-- Blocks with given nodes in the place of one block, and empty ones in the place of others. -/
def standIns (blocks : List BlockId) (id : BlockId) (nodes : List Draft) (other : BlockId) :
    Option (Block BlockId Draft) :=
  if other ∈ blocks then some { id := other, nodes := if other = id then nodes else [] } else none

/-- The blocks that some nodes show stand in them. -/
theorem Shows.subset {nodes : List Draft} {plain blocks : List BlockId}
    (h : Shows nodes plain blocks) (hapart : plain.Disjoint blocks) :
    blocks ⊆ nodes.flatMap Registry.blockIds := by
  intro id hid
  by_contra hout
  have hshows : ∀ inner, (Node.ids (substituteAll (standIns blocks id inner) nodes)).Perm
      (plain.map some ++ blocks.flatMap (substituteIds (standIns blocks id inner))) := fun inner =>
    h _ (fun other hother => if_neg (hapart hother)) fun other hother => by
      rw [standIns, if_pos hother]
      rfl
  -- a node without an identity, in the place of this block, would be shown
  have hinner : none
      ∈ Node.ids (substituteAll (standIns blocks id [.leaf 0 (.text "")]) nodes) := by
    refine (hshows _).symm.subset (List.mem_append_right _ (List.mem_flatMap.mpr ⟨id, hid, ?_⟩))
    rw [substituteIds, standIns, if_pos hid, if_pos rfl]
    exact .tail _ (.head _)
  have hsame : substituteAll (standIns blocks id [.leaf 0 (.text "")]) nodes
      = substituteAll (standIns blocks id []) nodes := by
    rw [substituteAll_eq_map, substituteAll_eq_map]
    refine List.map_congr_left fun node hnode => substitute_congr fun other hother => ?_
    have hne : other ≠ id := by
      rintro rfl
      exact hout (List.mem_flatMap.mpr ⟨node, hnode, hother⟩)
    rw [standIns, standIns, if_neg hne, if_neg hne]
  rw [hsame] at hinner
  rcases List.mem_append.mp ((hshows []).subset hinner) with hplain | hblock
  · obtain ⟨other, -, hsome⟩ := List.mem_map.mp hplain
    cases hsome
  · obtain ⟨other, hother, hmem⟩ := List.mem_flatMap.mp hblock
    rw [substituteIds, standIns, if_pos hother, ite_self] at hmem
    cases List.mem_singleton.mp hmem

section

variable {owner : Nat} {book : Book} {slots : Nat → Slot} {spare : List BlockId}
  {pending : List Nat} (h : Account owner book slots spare pending)

include h

/-- The block of a mention that another one encloses stands inside the other one's. -/
theorem Account.mem_inside_of_encloses {i j : Nat} (hi : i < book.ledger.length)
    (hencloses : book.ledger.Encloses i j) :
    (slots j).block ∈ Registry.inside book.store (slots i).block := by
  obtain ⟨state, hstate, -, hshows⟩ := h.exists_state hi
  obtain ⟨k, hholds, hmem⟩ := hencloses
  rw [Store.inside_of_current hstate]
  refine hshows.subset (fun id hplain hblock => ?_) ?_
  · -- the block of a mention is recorded, a node of its own is not
    obtain ⟨m, hm, rfl⟩ := List.mem_map.mp hblock
    exact h.ne_block (h.heldPlain_unrecorded hplain) (h.heldInside_lt hm) rfl
  · exact List.mem_map_of_mem (List.mem_flatMap.mpr ⟨k, Ledger.mem_held.mpr hholds, hmem⟩)

/-- **No named block ends up inside itself** if none does in the store; every mention has a
    name. -/
theorem Account.acyclic (hnamed : book.registry.get? "" = none)
    (huntangled : ∀ id, ¬ TransGen (Below (Registry.inside book.store)) id id) :
    book.ledger.Acyclic := by
  have hstep : ∀ {i j}, book.ledger.Encloses i j → i < book.ledger.length
      ∧ j < book.ledger.length
      ∧ Below (Registry.inside book.store) (slots i).block (slots j).block := by
    intro i j hencloses
    have hi : i < book.ledger.length := by
      by_contra hi
      obtain ⟨k, ⟨hk, hname, -⟩, -⟩ := hencloses
      have hdefault : book.ledger[i]!.name = "" := by
        rw [getElem!_neg book.ledger i hi]
        rfl
      exact h.names.unmentioned hnamed k hk (Eq.trans hname.symm hdefault)
    obtain ⟨k, hholds, hmem⟩ := id hencloses
    exact ⟨hi, h.numbers.inside_lt hholds.1 hmem, h.mem_inside_of_encloses hi hencloses⟩
  have hpath : ∀ {i j}, TransGen book.ledger.Encloses i j → i < book.ledger.length
      ∧ j < book.ledger.length
      ∧ TransGen (Below (Registry.inside book.store)) (slots i).block (slots j).block := by
    intro i j hpath
    induction hpath with
    | single hencloses =>
        obtain ⟨hi, hj, hbelow⟩ := hstep hencloses
        exact ⟨hi, hj, .single hbelow⟩
    | tail _ hencloses ih =>
        obtain ⟨-, hj, hbelow⟩ := hstep hencloses
        exact ⟨ih.1, hj, ih.2.2.tail hbelow⟩
  intro i j hencloses hsame
  obtain ⟨hi, hj, hbelow⟩ := hpath hencloses
  rw [(h.names.same i j hi hj).mpr hsame] at hbelow
  exact huntangled _ hbelow

end

/-- **Once.**  In the tree that a chain of layouts is composed to, every node has an identity, and
    none stands in two places exactly when no two mentions in the tree were given one block. -/
theorem nodup_identities_iff {config : Config} {text : String} {filename : Option String}
    {composed : Composed} {assembly : Assembly}
    (hrun : compose config text filename {} = .ok composed assembly)
    (hlayouts : ByLayouts config config.chainBound { text, filename } {}) :
    (∃ tops ledger, Recorded config config.chainBound { text, filename } {} [] tops composed.root
        ⟨assembly.store, assembly.registry, ledger⟩)
      ∧ ∀ tops ledger, Recorded config config.chainBound { text, filename } {} [] tops
          composed.root ⟨assembly.store, assembly.registry, ledger⟩ →
        ledger.Acyclic →
          none ∉ identities (assembly.store.resolve (.ofBlock composed.root))
            ∧ ((identities (assembly.store.resolve (.ofBlock composed.root))).Nodup
              ↔ ledger.PlacedOnce tops) := by
  obtain ⟨composed', assembly', tops, ledger, hrun', hfirst⟩ := exists_recorded hlayouts []
  cases hrun.symm.trans hrun'
  refine ⟨⟨tops, ledger, hfirst⟩, fun tops ledger hrecorded hacyclic => ?_⟩
  obtain ⟨owner, slots, spare, pending, plain, haccount, hshows⟩ :=
    hrecorded.account account_nothing
  have hperm := haccount.identities_perm hshows hacyclic
  refine ⟨fun hnone => ?_, haccount.nodup_identities_iff_placedOnce hshows hacyclic⟩
  obtain ⟨id, -, hid⟩ := List.mem_map.mp (hperm.subset hnone)
  exact nomatch hid

/-- A page that overrides a block of its layout and adds to one inside of it. -/
def wrappingConfig : Config :=
  { loader := some (.ofTemplates [("views/layout.jade",
      "html\n  body\n    block main\n      block content\n        p default")]) }

/-- The page. -/
def wrappingPage : String :=
  "extends layout\nblock main\n  div.wrap\n    block append content\n      p C"

/-- A rank for the two blocks of the page, which are number 5 and number 8: the second one lies
    around the first one. -/
def insideOut (id : BlockId) : Nat := if id = 8 then 2 else if id = 5 then 1 else 0

/-- What the page overrides stands in the layout's tree once, with the layout's own content in
    it. -/
theorem nodup_identities_iff_wrapping :
    ByLayouts wrappingConfig wrappingConfig.chainBound
        { text := wrappingPage, filename := "views/page.jade" } {}
      ∧ ∃ composed assembly,
        compose wrappingConfig wrappingPage "views/page.jade" {} = .ok composed assembly
          ∧ (∃ tops ledger, Recorded wrappingConfig wrappingConfig.chainBound
              { text := wrappingPage, filename := "views/page.jade" } {} [] tops composed.root
              ⟨assembly.store, assembly.registry, ledger⟩
            ∧ ledger.Acyclic ∧ ledger.PlacedOnce tops)
          ∧ none ∉ identities (assembly.store.resolve (.ofBlock composed.root))
          ∧ (identities (assembly.store.resolve (.ofBlock composed.root))).Nodup := by
  have hlayouts : ByLayouts wrappingConfig wrappingConfig.chainBound
      { text := wrappingPage, filename := "views/page.jade" } {} := by decide +kernel
  have hcomposed : ∃ found ∈ resultAfter? (compose wrappingConfig wrappingPage "views/page.jade" {}),
      found.2.registry.get? "" = none
        ∧ (∀ entry ∈ found.2.store.current.entries,
          ∀ inner ∈ entry.2.nodes.flatMap Registry.blockIds, insideOut inner < insideOut entry.1)
        ∧ (identities (found.2.store.resolve (.ofBlock found.1.root))).Nodup := by
    decide +kernel
  obtain ⟨⟨composed, assembly⟩, hfound, hnamed, hrank, hnodup⟩ := hcomposed
  have hrun := resultAfter?_eq_some hfound
  obtain ⟨⟨tops, ledger, hrecorded⟩, hiff⟩ := nodup_identities_iff hrun hlayouts
  obtain ⟨owner, slots, spare, pending, plain, haccount, -⟩ := hrecorded.account account_nothing
  have hacyclic : ledger.Acyclic := haccount.acyclic hnamed fun id =>
    untangled_of_rank insideOut hrank [id] id (.root (.head _))
  obtain ⟨hnone, honce⟩ := hiff tops ledger hrecorded hacyclic
  exact ⟨hlayouts, composed, assembly, hrun,
    ⟨tops, ledger, hrecorded, hacyclic, honce.mp hnodup⟩, hnone, hnodup⟩

/-- A layout with two blocks, one beside the other. -/
def besideConfig : Config :=
  { loader := some (.ofTemplates [("views/layout.jade", "block a\nblock b\n")]) }

/-- A page that overrides the first block of the layout, and mentions the second one inside of
    it. -/
def insidePage : String := "extends layout\nblock a\n  block b\n    p\n"

/-- The nodes of a tree in the order of a walk, each with those directly below it. -/
def family (root : Draft) : List (Option BlockId × List (Option BlockId)) :=
  root.walk.map fun node => (node.id?, node.children.map Node.id?)

/-- The family of the tree that a template is composed to, if it is. -/
def composedFamily (config : Config) (text filename : String) :
    Option (List (Option BlockId × List (Option BlockId))) :=
  match compose config text filename {} with
  | .ok composed assembly => some (family (assembly.store.resolve (.ofBlock composed.root)))
  | .error _ _ => none

/-- **A node with two parents**: the block that the page mentions inside the first block of the
    layout, number 3, stands there and in the place of the second one, with all that it holds. -/
theorem identities_repeat_inside :
    ∃ composed assembly, compose besideConfig insidePage "views/page.jade" {} = .ok composed assembly
      ∧ family (assembly.store.resolve (.ofBlock composed.root))
        = [(some 11, [some 4, some 3]), (some 4, [some 3]), (some 3, [some 2]), (some 2, [some 1]),
           (some 1, []), (some 3, [some 2]), (some 2, [some 1]), (some 1, [])]
      ∧ ¬ (identities (assembly.store.resolve (.ofBlock composed.root))).Nodup := by
  have hfamily : composedFamily besideConfig insidePage "views/page.jade"
      = some [(some 11, [some 4, some 3]), (some 4, [some 3]), (some 3, [some 2]),
          (some 2, [some 1]), (some 1, []), (some 3, [some 2]), (some 2, [some 1]),
          (some 1, [])] := by decide +kernel
  cases hrun : compose besideConfig insidePage "views/page.jade" {} with
  | error fault assembly =>
      rw [composedFamily, hrun] at hfamily
      cases hfamily
  | ok composed assembly =>
      rw [composedFamily, hrun] at hfamily
      have htree := Option.some.inj hfamily
      refine ⟨composed, assembly, rfl, htree, ?_⟩
      have hids : identities (assembly.store.resolve (.ofBlock composed.root))
          = (family (assembly.store.resolve (.ofBlock composed.root))).map Prod.fst := by
        rw [identities, family, List.map_map]
        rfl
      rw [hids, htree]
      decide

end Placement

end Stencil
