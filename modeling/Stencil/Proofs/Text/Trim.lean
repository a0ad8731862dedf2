import Stencil.Text.Blank
import Mathlib.Data.List.DropRight
import Mathlib.Data.List.TakeWhile

/-! # Trimming — what is taken off, and when there is nothing

    Taking characters off both ends leaves a text alone exactly when neither its
    first nor its last character is one of them (`dropAround_eq_self_iff`).  What
    is left has nothing to take off any more, and around it stood nothing else
    (`dropAround_idem`, `exists_append_dropAround`). -/

namespace Stencil.Text

variable {p : Char → Bool} {text before core after : List Char}

theorem dropWhile_eq_self_iff : text.dropWhile p = text ↔ ∀ c ∈ text.head?, p c = false := by
  cases text with
  | nil => simp
  | cons c rest => rw [List.dropWhile_eq_self_iff]; simp

theorem dropEndWhile_eq_self_iff :
    dropEndWhile p text = text ↔ ∀ c ∈ text.getLast?, p c = false := by
  rw [dropEndWhile, ← List.head?_reverse, ← dropWhile_eq_self_iff, List.reverse_eq_iff]

/-- Taking off the ends shortens a text, or there is nothing to take off. -/
theorem dropAround_eq_self_iff :
    dropAround p text = text
      ↔ (∀ c ∈ text.head?, p c = false) ∧ ∀ c ∈ text.getLast?, p c = false := by
  rw [← dropWhile_eq_self_iff, ← dropEndWhile_eq_self_iff, dropAround]
  constructor
  · intro h
    have hle := (List.dropWhile_sublist (l := (text.dropWhile p).reverse) p).length_le
    have hlength := congrArg List.length h
    rw [dropEndWhile, List.length_reverse] at hlength
    rw [List.length_reverse, hlength] at hle
    have hfront : text.dropWhile p = text := (List.dropWhile_suffix p).eq_of_length_le hle
    rw [hfront] at h
    exact ⟨hfront, h⟩
  · rintro ⟨hfront, hback⟩
    rw [hfront, hback]

/-- Nothing is left at the ends of what could be taken off. -/
theorem dropAround_idem (p : Char → Bool) (text : List Char) :
    dropAround p (dropAround p text) = dropAround p text := by
  refine dropAround_eq_self_iff.mpr ⟨fun c hc => ?_, ?_⟩
  · have hprefix : dropAround p text <+: text.dropWhile p := List.rdropWhile_prefix p _
    obtain ⟨rest, hrest⟩ := List.head?_eq_some_iff.mp hc
    obtain ⟨more, hmore⟩ := hprefix
    have hfront : (text.dropWhile p).dropWhile p = text.dropWhile p :=
      List.dropWhile_idempotent p text
    refine dropWhile_eq_self_iff.mp hfront c ?_
    rw [← hmore, hrest]
    rfl
  · exact dropEndWhile_eq_self_iff.mp (List.rdropWhile_idempotent p (text.dropWhile p))

/-- What is taken off at the ends is what was to be taken off. -/
theorem exists_append_dropAround (p : Char → Bool) (text : List Char) :
    ∃ before after, text = before ++ dropAround p text ++ after
      ∧ ∀ c ∈ before ++ after, p c = true := by
  refine ⟨text.takeWhile p, (text.dropWhile p).rtakeWhile p, ?_, ?_⟩
  · have hback : dropAround p text ++ (text.dropWhile p).rtakeWhile p = text.dropWhile p :=
      List.rdropWhile_append_rtakeWhile
    rw [List.append_assoc, hback, List.takeWhile_append_dropWhile]
  · intro c hc
    rcases List.mem_append.mp hc with hc | hc
    · exact List.mem_takeWhile_imp hc
    · exact List.mem_rtakeWhile_imp hc

/-- All that is to be taken off goes, and no more. -/
theorem dropAround_append (hends : ∀ c ∈ before ++ after, p c = true)
    (hcore : dropAround p core = core) (hne : core ≠ []) :
    dropAround p (before ++ core ++ after) = core := by
  obtain ⟨hhead, hlast⟩ := dropAround_eq_self_iff.mp hcore
  obtain ⟨first, rest, rfl⟩ := List.exists_cons_of_ne_nil hne
  have hfront : (before ++ (first :: rest) ++ after).dropWhile p = first :: rest ++ after := by
    rw [List.append_assoc,
      List.dropWhile_append_of_pos fun c hc => hends c (List.mem_append_left _ hc)]
    simp [hhead first rfl]
  rw [dropAround, hfront, dropEndWhile, List.reverse_append,
    List.dropWhile_append_of_pos fun c hc =>
      hends c (List.mem_append_right _ (List.mem_reverse.mp hc))]
  exact dropEndWhile_eq_self_iff.mpr hlast

end Stencil.Text
