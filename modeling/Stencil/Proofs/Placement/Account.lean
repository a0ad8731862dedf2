import Stencil.Proofs.Placement.Names
import Stencil.Proofs.Placement.Shows

/-! # The account of a drawing — who has which identity

    While nodes are drawn, an account is kept: every identity that was taken is
    that of one node in the content of one mention, or is still to be used, or
    is that of a named block; every mention is inside one other, or in none yet.
    `Account` is the invariant; `Account.define` is the step at a named block,
    and `Drawn.account` carries it through a drawing and says what the nodes
    that were drawn show. -/

namespace Stencil.Placement

/-- The mentions inside others, and those that are in none yet, are all different. -/
structure Numbers (ledger : Ledger) (pending : List Nat) : Prop where
  distinct : (pending ++ ledger.flatMap Mention.inside).Nodup
  bounded : ∀ i ∈ pending ++ ledger.flatMap Mention.inside, i < ledger.length

theorem Numbers.inside_lt {ledger : Ledger} {pending : List Nat} (h : Numbers ledger pending)
    {i j : Nat} (hi : i < ledger.length) (hj : j ∈ ledger[i]!.inside) : j < ledger.length :=
  h.bounded j (List.mem_append_right _ (Ledger.mem_inside hi hj))

/-- The nodes in the contents of all mentions. -/
def plainAll (slots : Nat → Slot) (count : Nat) : List BlockId :=
  (List.range count).flatMap fun i => (slots i).plain

/-- The blocks that a list of mentions was given. -/
def blocksOf (slots : Nat → Slot) (numbers : List Nat) : List BlockId :=
  numbers.map fun i => (slots i).block

/-- What holds of a book while a template draws: `spare` are the identities of nodes that are in
    the content of no mention, and `pending` the mentions that are inside no other. -/
structure Account (owner : Nat) (book : Book) (slots : Nat → Slot) (spare : List BlockId)
    (pending : List Nat) : Prop where
  settled : Registry.Settled book.store book.registry
  names : Names book slots
  owners : ∀ i < book.ledger.length, book.ledger[i]!.owner ≤ owner
  numbers : Numbers book.ledger pending
  distinct : (spare ++ plainAll slots book.ledger.length).Nodup
  fresh : ∀ id ∈ spare ++ plainAll slots book.ledger.length,
    book.store.Fresh ({ id } : Block BlockId Draft)
  shows : ∀ i < book.ledger.length,
    Shows (slots i).nodes (slots i).plain (blocksOf slots book.ledger[i]!.inside)

section

variable {owner : Nat} {book : Book} {slots : Nat → Slot} {spare kept : List BlockId}
  {pending : List Nat}

theorem blocksOf_congr {slots' : Nat → Slot} {numbers : List Nat}
    (h : ∀ i ∈ numbers, slots' i = slots i) : blocksOf slots' numbers = blocksOf slots numbers :=
  List.map_congr_left fun i hi => congrArg Slot.block (h i hi)

theorem plainAll_congr {slots' : Nat → Slot} {count : Nat} (h : ∀ i < count, slots' i = slots i) :
    plainAll slots' count = plainAll slots count :=
  List.flatMap_congr fun i hi => congrArg Slot.plain (h i (List.mem_range.mp hi))

theorem Numbers.of_subperm {ledger : Ledger} {fewer : List Nat} (h : Numbers ledger pending)
    (hfewer : fewer.Subperm pending) : Numbers ledger fewer := by
  have hall := (List.subperm_append_right (ledger.flatMap Mention.inside)).mpr hfewer
  obtain ⟨chosen, hperm, hsub⟩ := id hall
  exact ⟨hperm.nodup_iff.mp (h.distinct.sublist hsub), fun i hi => h.bounded i (hall.subset hi)⟩

/-- The mentions inside a further one are pending no more, but that one is. -/
theorem Numbers.append {ledger : Ledger} {mention : Mention}
    (h : Numbers ledger (pending ++ mention.inside)) :
    Numbers (ledger ++ [mention]) (pending ++ [ledger.length]) := by
  have hflat : (ledger ++ [mention]).flatMap Mention.inside
      = ledger.flatMap Mention.inside ++ mention.inside := by
    simp
  have hperm : (pending ++ [ledger.length] ++ (ledger ++ [mention]).flatMap Mention.inside).Perm
      (ledger.length :: (pending ++ mention.inside ++ ledger.flatMap Mention.inside)) := by
    rw [hflat]
    refine List.perm_iff_count.mpr fun i => ?_
    simp only [List.count_append, List.count_cons, List.count_nil]
    omega
  constructor
  case distinct =>
    rw [hperm.nodup_iff, List.nodup_cons]
    exact ⟨fun hmem => Nat.lt_irrefl _ (h.bounded _ hmem), h.distinct⟩
  case bounded =>
    intro i hi
    rw [List.length_append, List.length_singleton]
    rcases List.mem_cons.mp (hperm.subset hi) with rfl | hold
    · omega
    · have hlt := h.bounded i hold
      omega

/-- Fewer identities need not be accounted for. -/
theorem Account.of_subperm (h : Account owner book slots spare pending)
    (hkept : kept.Subperm spare) : Account owner book slots kept pending := by
  have hall := (List.subperm_append_right (plainAll slots book.ledger.length)).mpr hkept
  obtain ⟨chosen, hperm, hsub⟩ := id hall
  exact ⟨h.settled, h.names, h.owners, h.numbers,
    hperm.nodup_iff.mp (h.distinct.sublist hsub), fun id hid => h.fresh id (hall.subset hid),
    h.shows⟩

/-- An identity that is taken is a new one. -/
theorem Account.take (h : Account owner book slots spare pending) :
    Account owner { book with store := book.store.taken } slots (book.store.next :: spare)
      pending where
  settled := by
    refine ⟨h.settled.recorded, h.settled.separate, fun hstate => ?_⟩
    exact ⟨Nat.lt_succ_of_lt (h.settled.bounded hstate).1, (h.settled.bounded hstate).2⟩
  names := ⟨h.names.owners, h.names.unmentioned, h.names.current, h.names.recorded, h.names.same⟩
  owners := h.owners
  numbers := h.numbers
  distinct := by
    refine List.nodup_cons.mpr ⟨fun hmem => ?_, h.distinct⟩
    exact Nat.lt_irrefl _ (h.fresh _ hmem).given
  fresh := by
    intro id hid
    rcases List.mem_cons.mp hid with rfl | hid
    · refine ⟨Nat.lt_succ_self _, ?_⟩
      cases hstate : book.store.current.get? book.store.next with
      | none => exact hstate
      | some state => exact absurd (h.settled.bounded hstate).1 (Nat.lt_irrefl _)
    · exact ⟨Nat.lt_succ_of_lt (h.fresh id hid).given, (h.fresh id hid).unrecorded⟩
  shows := h.shows

/-- **A named block.**  What the content of a block shows goes to the account of its mention. -/
theorem Account.define {block : Block BlockId Draft} {plain : List BlockId} {inside : List Nat}
    (name : String)
    (h : Account owner book slots (block.id :: (plain ++ spare)) (pending ++ inside))
    (hshows : Shows block.nodes plain (blocksOf slots inside)) :
    Account owner (book.define owner name block inside).2
      (Function.update slots book.ledger.length
        ⟨(book.define owner name block inside).1.id, block.nodes, plain⟩)
      spare (pending ++ [book.ledger.length]) := by
  have hfresh : book.store.Fresh block :=
    ⟨(h.fresh block.id List.mem_cons_self).given, (h.fresh block.id List.mem_cons_self).unrecorded⟩
  have hledger : (book.define owner name block inside).2.ledger
      = book.ledger ++ [newMention owner name block inside] := rfl
  have hold : ∀ {slot : Slot}, ∀ i < book.ledger.length,
      Function.update slots book.ledger.length slot i = slots i := fun i hi =>
    Function.update_of_ne (Nat.ne_of_lt hi) ..
  have hplain : ∀ {slot : Slot},
      plainAll (Function.update slots book.ledger.length slot) (book.ledger.length + 1)
        = plainAll slots book.ledger.length ++ slot.plain := by
    intro slot
    rw [plainAll, List.range_succ, List.flatMap_append, List.flatMap_singleton,
      Function.update_self]
    exact congrArg (· ++ slot.plain) (plainAll_congr hold)
  -- the nodes of the content go from the spare identities to the mention
  have hperm : (spare ++ (plainAll slots book.ledger.length ++ plain)).Perm
      (plain ++ spare ++ plainAll slots book.ledger.length) := by
    refine List.perm_iff_count.mpr fun id => ?_
    simp only [List.count_append]
    omega
  have hall := List.nodup_cons.mp h.distinct
  constructor
  case settled => exact Registry.define_settled h.settled hfresh name owner
  case names => exact h.names.define h.settled hfresh h.owners plain
  case owners =>
    rw [hledger]
    intro i hi
    rcases Ledger.lt_or_eq_of_append hi with hil | rfl
    · rw [Ledger.get_append_left hil]
      exact h.owners i hil
    · -- the new mention is one of this template
      exact Nat.le_of_eq (congrArg Mention.owner Ledger.get_append_self)
  case numbers => exact h.numbers.append
  case distinct =>
    rw [hledger, List.length_append, List.length_singleton, hplain]
    exact hperm.nodup_iff.mpr hall.2
  case fresh =>
    rw [hledger, List.length_append, List.length_singleton, hplain]
    intro id hid
    have hmem := hperm.subset hid
    exact Registry.fresh_define h.settled hfresh name owner
      (h.fresh id (List.mem_cons_of_mem _ hmem)) fun hsame => hall.1 (hsame ▸ hmem)
  case shows =>
    rw [hledger]
    intro i hi
    -- what is inside a mention was mentioned before it, and has kept its block
    have hinside : ∀ numbers : List Nat, (∀ j ∈ numbers, j < book.ledger.length) →
        ∀ {slot : Slot}, blocksOf (Function.update slots book.ledger.length slot) numbers
          = blocksOf slots numbers := fun numbers hlt slot =>
      blocksOf_congr fun j hj => hold j (hlt j hj)
    rcases Ledger.lt_or_eq_of_append hi with hil | rfl
    · rw [Ledger.get_append_left hil, hold i hil, hinside]
      · exact h.shows i hil
      · exact fun j hj => h.numbers.inside_lt hil hj
    · rw [Ledger.get_append_self, Function.update_self, hinside]
      · exact hshows
      · exact fun j hj => h.numbers.bounded j
          (List.mem_append_left _ (List.mem_append_right _ hj))

/-- **The account of a drawing.**  A drawing takes its nodes from the account, and shows them and
    the blocks of its mentions. -/
theorem Drawn.account {after : Book} {loose : List BlockId} {tops : List Nat} {nodes : List Draft}
    (h : Drawn owner book loose tops nodes after) :
    ∀ {slots spare pending}, Account owner book slots spare pending →
      ∃ slots' plain, Account owner after slots' (loose ++ plain ++ spare) (pending ++ tops)
        ∧ Shows nodes plain (blocksOf slots' tops)
        ∧ book.ledger.length ≤ after.ledger.length
        ∧ ∀ i < book.ledger.length, slots' i = slots i := by
  induction h with
  | nothing book =>
      intro slots spare pending h
      refine ⟨slots, [], ?_, shows_nil, Nat.le_refl _, fun _ _ => rfl⟩
      simpa using h
  | take book =>
      intro slots spare pending h
      refine ⟨slots, [], ?_, shows_nil, Nat.le_refl _, fun _ _ => rfl⟩
      simpa using h.take
  | drop _ hkept ih =>
      intro slots spare pending h
      obtain ⟨slots', plain, haccount, hshows, hle, hsame⟩ := ih h
      refine ⟨slots', plain, haccount.of_subperm ?_, hshows, hle, hsame⟩
      rw [List.append_assoc, List.append_assoc]
      exact (List.subperm_append_right _).mpr hkept
  | @append book middle after loose more tops others nodes next _ _ ih ihmore =>
      intro slots spare pending h
      obtain ⟨slots₁, plain₁, h₁, hshows₁, hle₁, hsame₁⟩ := ih h
      obtain ⟨slots₂, plain₂, h₂, hshows₂, hle₂, hsame₂⟩ := ihmore h₁
      -- the mentions of the first part keep their blocks while the second is drawn
      have htops : blocksOf slots₂ tops = blocksOf slots₁ tops :=
        blocksOf_congr fun i hi => hsame₂ i (h₁.numbers.bounded i
          (List.mem_append_left _ (List.mem_append_right _ hi)))
      refine ⟨slots₂, plain₁ ++ plain₂, ?_, ?_, Nat.le_trans hle₁ hle₂, fun i hi => ?_⟩
      · rw [← List.append_assoc pending]
        refine h₂.of_subperm (List.Perm.subperm (List.perm_iff_count.mpr fun id => ?_))
        simp only [List.count_append]
        omega
      · rw [blocksOf, List.map_append]
        exact (htops ▸ hshows₁).append hshows₂
      · rw [hsame₂ i (by omega), hsame₁ i hi]
  | wrap _ hid ih =>
      intro slots spare pending h
      obtain ⟨slots', plain, haccount, hshows, hle, hsame⟩ := ih h
      refine ⟨slots', _ :: plain, haccount.of_subperm ?_, hshows.wrap hid, hle, hsame⟩
      refine List.Perm.subperm (List.perm_iff_count.mpr fun id => ?_)
      simp only [List.cons_append, List.count_append, List.count_cons]
      omega
  | @named book after tops name block _ ih =>
      intro slots spare pending h
      obtain ⟨slots', plain, haccount, hshows, hle, hsame⟩ := ih h
      refine ⟨_, [], haccount.define name hshows, ?_, ?_, fun i hi => ?_⟩
      · simp only [blocksOf, List.map_cons, List.map_nil, Function.update_self]
        exact shows_block _
      · exact Nat.le_trans hle (by simp [Book.define])
      · rw [Function.update_of_ne (by omega), hsame i hi]

end

end Stencil.Placement
