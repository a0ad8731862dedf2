import Mathlib.Data.List.TakeWhile
import Stencil.Text.Blank
import Stencil.Text.Lines

/-! # Lines — runs up to the end of a line, and what stands on it

    A run of characters goes up to the first one that is not wanted, which is
    at the end of the line at the latest.  What stands on a line is everything
    after its indentation; a line with nothing on it is blank. -/

namespace Stencil

variable {line rest text : List Char} {p : Char → Bool}

/-- Nothing more stands on the line. -/
def EndsLine (rest : List Char) : Prop := ∀ c ∈ rest.head?, c = '\n'

/-! ## Runs up to the end of the line -/

/-- No character with `p` is at the front. -/
def Stops (p : Char → Bool) (rest : List Char) : Prop := ∀ c ∈ rest.head?, p c = false

theorem EndsLine.stops (hrest : EndsLine rest) (hp : p '\n' = false) : Stops p rest :=
  fun c hc => hrest c hc ▸ hp

theorem takeWhile_stops (hrest : Stops p rest) : rest.takeWhile p = [] := by
  cases rest with
  | nil => rfl
  | cons c rest => rw [List.takeWhile_cons_of_neg (by simp [hrest c rfl])]

theorem dropWhile_stops (hrest : Stops p rest) : rest.dropWhile p = rest := by
  cases rest with
  | nil => rfl
  | cons c rest => rw [List.dropWhile_cons_of_neg (by simp [hrest c rfl])]

theorem takeWhile_line (hline : ∀ c ∈ line, p c = true) (hrest : Stops p rest) :
    (line ++ rest).takeWhile p = line := by
  rw [List.takeWhile_append_of_pos hline, takeWhile_stops hrest, List.append_nil]

theorem dropWhile_line (hline : ∀ c ∈ line, p c = true) (hrest : Stops p rest) :
    (line ++ rest).dropWhile p = rest := by
  rw [List.dropWhile_append_of_pos hline, dropWhile_stops hrest]

theorem splitLine_line (hline : ∀ c ∈ line, c ≠ '\n') (hrest : EndsLine rest) :
    Text.splitLine (line ++ rest) = (line, rest) := by
  have hall : ∀ c ∈ line, (c != '\n') = true := fun c hc => bne_iff_ne.mpr (hline c hc)
  rw [Text.splitLine, takeWhile_line hall (hrest.stops rfl), dropWhile_line hall (hrest.stops rfl)]

/-- The rest behind a run stops it. -/
theorem stops_dropWhile (p : Char → Bool) (text : List Char) : Stops p (text.dropWhile p) := by
  intro c hc
  have hnot := List.head?_dropWhile_not p text
  rw [Option.mem_def.mp hc] at hnot
  exact hnot

/-- A text that starts a line and ends it has no line. -/
theorem eq_nil_of_endsLine (hline : '\n' ∉ line) (htext : EndsLine (line ++ rest)) : line = [] := by
  cases line with
  | nil => rfl
  | cons c line =>
      obtain rfl : c = '\n' := htext c rfl
      exact absurd List.mem_cons_self hline

namespace Text

/-! ## Line ends -/

theorem normalizeNewlines_of_not_mem (text : List Char) (h : '\r' ∉ text) :
    normalizeNewlines text = text := by
  induction text with
  | nil => rfl
  | cons c text ih =>
      rw [List.mem_cons, not_or] at h
      have hc : c ≠ '\r' := fun he => h.1 he.symm
      rw [normalizeNewlines, ih h.2]
      · exact fun _ he _ => hc he
      · exact fun he => hc he

theorem normalizeNewlines_length_le (text : List Char) :
    (normalizeNewlines text).length ≤ text.length := by
  fun_induction normalizeNewlines text with
  | case1 => exact Nat.le_refl _
  | case2 rest ih => exact Nat.succ_le_succ (Nat.le_succ_of_le ih)
  | case3 rest _ ih => exact Nat.succ_le_succ ih
  | case4 c rest _ _ ih => exact Nat.succ_le_succ ih

theorem not_mem_normalizeNewlines (text : List Char) : '\r' ∉ normalizeNewlines text := by
  fun_induction normalizeNewlines text with
  | case1 => exact List.not_mem_nil
  | case2 rest ih => simpa using ih
  | case3 rest _ ih => simpa using ih
  | case4 c rest _ hc ih =>
      rw [List.mem_cons, not_or]
      exact ⟨fun he => hc he.symm, ih⟩

/-- A text is brought to line feeds part by part, where no line feed is cut from a carriage
    return. -/
theorem normalizeNewlines_append {c : Char} (hc : c ≠ '\n') (text rest : List Char) :
    normalizeNewlines (text ++ c :: rest)
      = normalizeNewlines text ++ normalizeNewlines (c :: rest) := by
  fun_induction normalizeNewlines text with
  | case1 => rfl
  | case2 text ih => simp [normalizeNewlines, ih]
  | case3 text hne ih =>
      have hnext : ∀ more, text ++ c :: rest = '\n' :: more → False := by
        intro more he
        cases text with
        | nil => exact hc (List.cons.inj he).1
        | cons d text =>
            obtain rfl : d = '\n' := (List.cons.inj he).1
            exact hne text rfl
      rw [List.cons_append, normalizeNewlines.eq_3 _ hnext, ih]
      rfl
  | case4 d text hpair hd ih =>
      rw [List.cons_append, normalizeNewlines.eq_4 d _ (fun _ he _ => hd he) hd, ih]
      rfl

/-! ## What stands on a line -/

/-- A character that lines are indented with. -/
def isIndentation (c : Char) : Bool := c == ' ' || c == '\t'

/-- Everything on a line after its indentation. -/
def content (line : List Char) : List Char := line.dropWhile isIndentation

/-- What stands on the lines that are not blank, in order. -/
def contents (lines : List (List Char)) : List (List Char) :=
  (lines.map content).filter (!·.isEmpty)

theorem contents_cons (line : List Char) (lines : List (List Char)) :
    contents (line :: lines) = contents [line] ++ contents lines := by
  rw [← List.singleton_append, contents, List.map_append, List.filter_append]
  rfl

/-- A blank line says nothing. -/
theorem contents_cons_of_blank (hline : content line = []) (lines : List (List Char)) :
    contents (line :: lines) = contents lines := by
  rw [contents_cons, contents, List.map_singleton, hline]
  rfl

/-- Lines are alike if the same stands on them. -/
theorem contents_cons_congr {other : List Char} (h : content line = content other)
    (lines : List (List Char)) : contents (line :: lines) = contents (other :: lines) := by
  simp only [contents, List.map_cons, h]

theorem content_of_stops (h : Stops isIndentation line) : content line = line := dropWhile_stops h

/-- Indentation in front of a line is taken off. -/
theorem content_append {indentation : List Char}
    (hindentation : ∀ c ∈ indentation, isIndentation c = true) :
    content (indentation ++ line) = content line :=
  List.dropWhile_append_of_pos hindentation

theorem isIndentation_of_mem_spaces {count : Nat} {c : Char} (h : c ∈ List.replicate count ' ') :
    isIndentation c = true := by
  rw [List.eq_of_mem_replicate h]
  rfl

end Text

end Stencil
