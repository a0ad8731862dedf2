import Mathlib.Logic.Relation
import Stencil.Node

/-! # Mentions — where the templates of a chain name blocks

    A chain of layouts mentions named blocks: every `block` statement is a
    mention, with a name, a mode, and the mentions directly inside its content.
    A ledger lists the mentions of a chain in the order in which they are read:
    the most derived template first, and what is inside a mention before it.

    What becomes of a mention follows from the ledger alone:

    * two mentions of a name are given one block unless a template mentions the
      name again in between (`SameBlock`);
    * the content of a mention is in the tree's blocks at the end unless it was
      overridden (`Survives`), and then the name's last block holds it
      (`Holds`);
    * a mention is live when it is in the tree of the layout at the end of the
      chain (`Live`). -/

namespace Stencil.Placement

/-- The mention of a named block. -/
structure Mention where
  /-- The template that the mention is in. -/
  owner : Nat
  name : String
  mode : BlockMode
  /-- The numbers of the mentions directly inside the content. -/
  inside : List Nat := []
deriving Repr, DecidableEq

instance : Inhabited Mention := ⟨{ owner := 0, name := "", mode := .replace }⟩

/-- The mentions of a chain of templates in the order in which they are read. -/
abbrev Ledger := List Mention

namespace Ledger

theorem mem_inside {ledger : Ledger} {i j : Nat} (hi : i < ledger.length)
    (hj : j ∈ ledger[i]!.inside) : j ∈ ledger.flatMap Mention.inside := by
  refine List.mem_flatMap.mpr ⟨ledger[i]!, ?_, hj⟩
  rw [getElem!_pos ledger i hi]
  exact List.getElem_mem hi

/-- Two mentions are of one name. -/
def SameName (ledger : Ledger) (i j : Nat) : Prop := ledger[i]!.name = ledger[j]!.name

/-- The template of a mention has mentioned the name before. -/
def Repeats (ledger : Ledger) (i : Nat) : Prop :=
  ∃ j < i, ledger.SameName j i ∧ ledger[j]!.owner = ledger[i]!.owner

/-- Two mentions of a name are given one block: neither the later one nor a mention in between is
    a repeat. -/
def SameBlock (ledger : Ledger) (i j : Nat) : Prop :=
  ledger.SameName i j
    ∧ ∀ k, min i j < k → k ≤ max i j → ledger.SameName k i → ¬ ledger.Repeats k

/-- The content of a mention is kept to the end: it is a repeat or nothing before it replaces what
    layouts say, and no later repeat replaces it. -/
def Survives (ledger : Ledger) (i : Nat) : Prop :=
  (ledger.Repeats i ∨ ∀ j < i, ledger.SameName j i → ledger[j]!.mode ≠ .replace)
    ∧ ∀ j < ledger.length, i < j → ledger.SameName j i → ledger.Repeats j →
      ledger[j]!.mode ≠ .replace

/-- The block that the first mention is given holds the content of the second one at the end. -/
def Holds (ledger : Ledger) (i k : Nat) : Prop :=
  k < ledger.length ∧ ledger.SameName i k ∧ ledger.Survives k
    ∧ ∀ j < ledger.length, i < j → ledger.SameName j i → ¬ ledger.Repeats j

/-- The block of the first mention has the second one directly inside it at the end. -/
def Encloses (ledger : Ledger) (i j : Nat) : Prop := ∃ k, ledger.Holds i k ∧ j ∈ ledger[k]!.inside

/-- The mentions in the tree at the end; `tops` are those in no other mention of the last
    template. -/
inductive Live (ledger : Ledger) (tops : List Nat) : Nat → Prop where
  | top {i : Nat} : i ∈ tops → Live ledger tops i
  | inside {i j : Nat} : Live ledger tops i → ledger.Encloses i j → Live ledger tops j

/-- No named block ends up inside itself. -/
def Acyclic (ledger : Ledger) : Prop :=
  ∀ i j, Relation.TransGen ledger.Encloses i j → ¬ ledger.SameBlock i j

/-- No two mentions in the tree are given one block. -/
def PlacedOnce (ledger : Ledger) (tops : List Nat) : Prop :=
  ∀ i j, ledger.Live tops i → ledger.Live tops j → ledger.SameBlock i j → i = j

section Names

variable {ledger : Ledger} {i j k : Nat}

theorem SameName.symm (h : ledger.SameName i j) : ledger.SameName j i := Eq.symm h

theorem SameName.trans (h : ledger.SameName i j) (hk : ledger.SameName j k) :
    ledger.SameName i k :=
  Eq.trans h hk

theorem SameBlock.symm (h : ledger.SameBlock i j) : ledger.SameBlock j i := by
  obtain ⟨hname, hbetween⟩ := h
  refine ⟨hname.symm, fun k hlow hhigh hk => hbetween k ?_ ?_ (hk.trans hname.symm)⟩
  · rwa [Nat.min_comm]
  · rwa [Nat.max_comm]

/-- What a mention's block holds depends on the block alone. -/
theorem Holds.of_sameBlock (h : ledger.Holds i k) (hsame : ledger.SameBlock i j) :
    ledger.Holds j k := by
  obtain ⟨hk, hname, hsurvives, hlast⟩ := h
  refine ⟨hk, hsame.1.symm.trans hname, hsurvives, fun l hl hjl hlj hrepeats => ?_⟩
  by_cases hil : i < l
  · exact hlast l hl hil (hlj.trans hsame.1.symm) hrepeats
  · exact hsame.2 l (by omega) (by omega) (hlj.trans hsame.1.symm) hrepeats

end Names

/-! ## One more mention -/

section Append

variable {ledger : Ledger} {mention : Mention} {i j : Nat}

/-- A mention of the longer ledger is an old one, or the further one. -/
theorem lt_or_eq_of_append (hi : i < (ledger ++ [mention]).length) :
    i < ledger.length ∨ i = ledger.length := by
  rw [List.length_append, List.length_singleton] at hi
  omega

theorem get_append_left (h : i < ledger.length) : (ledger ++ [mention])[i]! = ledger[i]! := by
  simp [List.getElem?_append_left h]

theorem get_append_self : (ledger ++ [mention])[ledger.length]! = mention := by
  simp

theorem sameName_append (hi : i < ledger.length) (hj : j < ledger.length) :
    (ledger ++ [mention] : Ledger).SameName i j ↔ ledger.SameName i j := by
  rw [SameName, get_append_left hi, get_append_left hj, SameName]

theorem sameName_append_self (hi : i < ledger.length) :
    (ledger ++ [mention] : Ledger).SameName i ledger.length ↔ ledger[i]!.name = mention.name := by
  rw [SameName, get_append_left hi, get_append_self]

theorem repeats_append (hi : i < ledger.length) :
    (ledger ++ [mention] : Ledger).Repeats i ↔ ledger.Repeats i := by
  refine exists_congr fun j => and_congr_right fun hj => ?_
  have hjl : j < ledger.length := Nat.lt_trans hj hi
  rw [sameName_append hjl hi, get_append_left hjl, get_append_left hi]

theorem repeats_append_self :
    (ledger ++ [mention] : Ledger).Repeats ledger.length
      ↔ ∃ j < ledger.length, ledger[j]!.name = mention.name
        ∧ ledger[j]!.owner = mention.owner := by
  refine exists_congr fun j => and_congr_right fun hj => ?_
  rw [sameName_append_self hj, get_append_left hj, get_append_self]

theorem sameBlock_append (hi : i < ledger.length) (hj : j < ledger.length) :
    (ledger ++ [mention] : Ledger).SameBlock i j ↔ ledger.SameBlock i j := by
  unfold SameBlock
  rw [sameName_append hi hj]
  refine and_congr_right fun _ => forall_congr' fun k => imp_congr_right fun _ =>
    imp_congr_right fun hk => ?_
  have hkl : k < ledger.length := by omega
  rw [sameName_append hkl hi, repeats_append hkl]

/-- A further mention is given the block of an earlier one that is the last of its name, unless it
    is a repeat. -/
theorem sameBlock_append_self {last : Nat} (hi : i < ledger.length)
    (hlast : last < ledger.length) (hname : ledger[last]!.name = mention.name)
    (hmax : ∀ k < ledger.length, ledger[k]!.name = mention.name → k ≤ last) :
    (ledger ++ [mention] : Ledger).SameBlock i ledger.length
      ↔ ledger.SameBlock i last ∧ ¬ (ledger ++ [mention] : Ledger).Repeats ledger.length := by
  constructor
  · rintro ⟨hsame, hbetween⟩
    rw [sameName_append_self hi] at hsame
    have hle := hmax i hi hsame
    refine ⟨⟨hsame.trans hname.symm, fun k hlow hhigh hk hrepeats => ?_⟩, ?_⟩
    · have hkl : k < ledger.length := by omega
      exact hbetween k (by omega) (by omega) ((sameName_append hkl hi).mpr hk)
        ((repeats_append hkl).mpr hrepeats)
    · exact hbetween ledger.length (by omega) (by omega) ((sameName_append_self hi).mpr hsame).symm
  · rintro ⟨⟨hsame, hbetween⟩, hnew⟩
    have hsame' : ledger[i]!.name = mention.name := Eq.trans hsame hname
    have hle := hmax i hi hsame'
    refine ⟨(sameName_append_self hi).mpr hsame', fun k hlow hhigh hk hrepeats => ?_⟩
    by_cases hkl : k < ledger.length
    · have hki := (sameName_append hkl hi).mp hk
      have hkle := hmax k hkl (Eq.trans hki hsame')
      exact hbetween k (by omega) (by omega) hki ((repeats_append hkl).mp hrepeats)
    · have hkn : k = ledger.length := by omega
      exact hnew (hkn ▸ hrepeats)

/-- A further mention takes the content of an earlier one away only when it is a repeat that
    replaces it. -/
theorem survives_append (hi : i < ledger.length) :
    (ledger ++ [mention] : Ledger).Survives i
      ↔ ledger.Survives i
        ∧ (mention.name = ledger[i]!.name →
          (ledger ++ [mention] : Ledger).Repeats ledger.length → mention.mode ≠ .replace) := by
  have hbefore : ∀ j < i, j < ledger.length := fun j hj => Nat.lt_trans hj hi
  have hfirst : (∀ j < i, (ledger ++ [mention] : Ledger).SameName j i →
        (ledger ++ [mention])[j]!.mode ≠ .replace)
      ↔ ∀ j < i, ledger.SameName j i → ledger[j]!.mode ≠ .replace := by
    refine forall_congr' fun j => imp_congr_right fun hj => ?_
    rw [sameName_append (hbefore j hj) hi, get_append_left (hbefore j hj)]
  unfold Survives
  rw [repeats_append hi, hfirst, and_assoc]
  refine and_congr_right fun _ => ⟨fun h => ⟨fun j hj hij hname hrepeats => ?_, ?_⟩, ?_⟩
  · have hkept := h j (by simp; omega) hij ((sameName_append hj hi).mpr hname)
      ((repeats_append hj).mpr hrepeats)
    rwa [get_append_left hj] at hkept
  · -- the further mention comes later, so it must not replace as a repeat
    intro hname hrepeats
    have hkept := h ledger.length (by simp) hi
      ((sameName_append_self hi).mpr hname.symm).symm hrepeats
    rwa [get_append_self] at hkept
  · rintro ⟨hold, hnew⟩ j hj hij hname hrepeats
    rcases lt_or_eq_of_append hj with hjl | rfl
    · rw [get_append_left hjl]
      exact hold j hjl hij ((sameName_append hjl hi).mp hname) ((repeats_append hjl).mp hrepeats)
    · rw [get_append_self]
      exact hnew ((sameName_append_self hi).mp hname.symm).symm hrepeats

/-- The content of a further mention is kept when it is a repeat, or nothing replaces what layouts
    say. -/
theorem survives_append_self :
    (ledger ++ [mention] : Ledger).Survives ledger.length
      ↔ (ledger ++ [mention] : Ledger).Repeats ledger.length
        ∨ ∀ j < ledger.length, ledger[j]!.name = mention.name → ledger[j]!.mode ≠ .replace := by
  unfold Survives
  constructor
  · rintro ⟨hrepeats | hfirst, -⟩
    · exact Or.inl hrepeats
    · refine Or.inr fun j hj hname => ?_
      have hkept := hfirst j hj ((sameName_append_self hj).mpr hname)
      rwa [get_append_left hj] at hkept
  · intro h
    refine ⟨h.imp_right fun hfirst j hj hname => ?_, fun j hj hlt => ?_⟩
    · rw [get_append_left hj]
      exact hfirst j hj ((sameName_append_self hj).mp hname)
    · have := lt_or_eq_of_append hj
      omega

end Append

end Ledger

end Stencil.Placement
