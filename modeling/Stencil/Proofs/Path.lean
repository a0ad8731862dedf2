import Stencil.Path

/-! # Paths in normal form — what bringing them to normal form leaves alone

    The components of a path in normal form lead somewhere, and those that lead
    up stand at the front of a relative path (`Normal`).  Such components are
    pushed one behind the other, so a path in normal form is its own normal form
    (`normalize_normalize`). -/

namespace Stencil.Path

variable {absolute : Bool} {component : List Char} {reversed : List (List Char)}

/-- The reversed components of paths in normal form. -/
inductive Normal (absolute : Bool) : List (List Char) → Prop where
  | nil : Normal absolute []
  | down {component : List Char} {reversed : List (List Char)} (nonempty : component ≠ [])
      (moves : component ≠ ['.']) (forward : component ≠ ['.', '.'])
      (slashless : '/' ∉ component) (before : Normal absolute reversed) :
      Normal absolute (component :: reversed)
  | up {reversed : List (List Char)} (relative : absolute = false)
      (front : ∀ other ∈ reversed, other = ['.', '.']) (before : Normal absolute reversed) :
      Normal absolute (['.', '.'] :: reversed)

theorem Normal.slashless (h : Normal absolute reversed) :
    ∀ component ∈ reversed, component ≠ [] ∧ '/' ∉ component := by
  induction h with
  | nil => exact fun _ hmem => nomatch hmem
  | down nonempty _ _ slashless _ ih => exact List.forall_mem_cons.mpr ⟨⟨nonempty, slashless⟩, ih⟩
  | up _ _ _ ih => exact List.forall_mem_cons.mpr ⟨⟨by simp, by decide⟩, ih⟩

/-- What stands before the last component of a path in normal form is in normal form. -/
theorem Normal.tail (h : Normal absolute (component :: reversed)) : Normal absolute reversed := by
  cases h with
  | down _ _ _ _ before => exact before
  | up _ _ before => exact before

/-- A component that ends a path in normal form is pushed as it is. -/
theorem Normal.push_eq (h : Normal absolute (component :: reversed)) :
    pushComponent absolute reversed component = component :: reversed := by
  cases h with
  | down nonempty moves forward => simp [pushComponent, nonempty, moves, forward]
  | up relative front =>
      cases reversed with
      | nil => simp [pushComponent, relative]
      | cons last others => simp [pushComponent, front last List.mem_cons_self]

/-- A component that is pushed keeps the normal form. -/
theorem Normal.push (h : Normal absolute reversed) (hcomponent : '/' ∉ component) :
    Normal absolute (pushComponent absolute reversed component) := by
  unfold pushComponent
  split
  · exact h
  · next hleads =>
      simp only [Bool.or_eq_true, beq_iff_eq, not_or] at hleads
      split
      · next hforward => exact .down hleads.1 hleads.2 (by simpa using hforward) hcomponent h
      · next hup =>
          obtain rfl : component = ['.', '.'] := by simpa using hup
          cases h with
          | nil =>
              cases absolute with
              | true => exact .nil
              | false => exact .up rfl (fun _ hmem => nomatch hmem) .nil
          | down nonempty moves forward slashless before => simpa [forward] using before
          | up relative front before =>
              exact .up relative (List.forall_mem_cons.mpr ⟨rfl, front⟩) (.up relative front before)

/-- Pushing the components of a path in normal form gives them back. -/
theorem Normal.foldl_push (h : Normal absolute reversed) :
    reversed.reverse.foldl (pushComponent absolute) [] = reversed := by
  induction reversed with
  | nil => rfl
  | cons component reversed ih =>
      rw [List.reverse_cons, List.foldl_append, ih h.tail]
      exact h.push_eq

theorem normal_foldl_push {parts : List (List Char)} (hparts : ∀ part ∈ parts, '/' ∉ part)
    (h : Normal absolute reversed) :
    Normal absolute (parts.foldl (pushComponent absolute) reversed) := by
  induction parts generalizing reversed with
  | nil => exact h
  | cons part parts ih =>
      obtain ⟨hpart, hrest⟩ := List.forall_mem_cons.mp hparts
      exact ih hrest (h.push hpart)

/-! ## Components -/

/-- No component has a slash. -/
theorem slashless_of_mem_components {path : List Char} :
    ∀ component ∈ components path, '/' ∉ component := by
  induction path with
  | nil => simp [components]
  | cons c rest ih =>
      unfold components
      split
      · exact List.forall_mem_cons.mpr ⟨by simp, ih⟩
      · next hslash =>
          have hne : '/' ≠ c := fun h => hslash (beq_iff_eq.mpr h.symm)
          split
          · simp [hne]
          · next first others hrest =>
              rw [hrest] at ih
              obtain ⟨hfirst, hothers⟩ := List.forall_mem_cons.mp ih
              exact List.forall_mem_cons.mpr ⟨by simp [hne, hfirst], hothers⟩

theorem components_of_slashless (hcomponent : '/' ∉ component) :
    components component = [component] := by
  induction component with
  | nil => rfl
  | cons c rest ih =>
      rw [List.mem_cons, not_or] at hcomponent
      obtain ⟨hne, hrest⟩ := hcomponent
      simp [components, ih hrest, Ne.symm hne]

theorem components_append_slash {path : List Char} (hcomponent : '/' ∉ component) :
    components (component ++ '/' :: path) = component :: components path := by
  induction component with
  | nil => simp [components]
  | cons c rest ih =>
      rw [List.mem_cons, not_or] at hcomponent
      obtain ⟨hne, hrest⟩ := hcomponent
      simp [components, ih hrest, Ne.symm hne]

/-- Joined components are found again. -/
theorem components_joinComponents {parts : List (List Char)} (hne : parts ≠ [])
    (hparts : ∀ part ∈ parts, '/' ∉ part) : components (joinComponents parts) = parts := by
  induction parts with
  | nil => exact absurd rfl hne
  | cons part parts ih =>
      obtain ⟨hpart, hrest⟩ := List.forall_mem_cons.mp hparts
      cases parts with
      | nil => exact components_of_slashless hpart
      | cons next others =>
          rw [joinComponents, components_append_slash hpart, ih (by simp) hrest]
          exact nofun

/-! ## The normal form -/

/-- The slashes at the front of a path in normal form are those that were there. -/
theorem rootSlashes_append {path : List Char} (hpath : path.head? ≠ some '/') (root : List Char) :
    rootSlashes (rootSlashes root ++ path) = rootSlashes root := by
  have hplain : ∀ slashes : List Char, slashes = [] ∨ slashes = ['/'] ∨ slashes = ['/', '/'] →
      rootSlashes (slashes ++ path) = slashes := by
    cases path with
    | nil => rintro _ (rfl | rfl | rfl) <;> rfl
    | cons c rest =>
        have hc : c ≠ '/' := fun h => hpath (by simp [h])
        rintro _ (rfl | rfl | rfl) <;> simp [rootSlashes, hc]
  refine hplain _ ?_
  unfold rootSlashes
  split <;> simp

theorem normal_normalComponents (path : List Char) :
    Normal (!(rootSlashes path).isEmpty) (normalComponents path).reverse := by
  rw [normalComponents, List.reverse_reverse]
  exact normal_foldl_push slashless_of_mem_components .nil

/-- Slashes at the front add no components. -/
theorem foldl_components_append (root path : List Char) :
    (components (rootSlashes root ++ path)).foldl (pushComponent absolute) []
      = (components path).foldl (pushComponent absolute) [] := by
  have hslashes : rootSlashes root = [] ∨ rootSlashes root = ['/'] ∨ rootSlashes root = ['/', '/'] := by
    unfold rootSlashes
    split <;> simp
  rcases hslashes with h | h | h <;> simp [h, components, pushComponent]

/-- Components in normal form are pushed as they are, also when there are none. -/
theorem Normal.foldl_components {parts : List (List Char)} (h : Normal absolute parts.reverse) :
    (components (joinComponents parts)).foldl (pushComponent absolute) [] = parts.reverse := by
  cases parts with
  | nil => rfl
  | cons part parts =>
      have hslashless : ∀ other ∈ part :: parts, '/' ∉ other := fun other hmem =>
        (h.slashless other (List.mem_reverse.mpr hmem)).2
      have hfold := h.foldl_push
      rw [List.reverse_reverse] at hfold
      rw [components_joinComponents (by simp) hslashless, hfold]

/-- Joined components start with a slash only if one of them does, or is empty. -/
theorem head?_joinComponents {parts : List (List Char)}
    (hparts : ∀ part ∈ parts, part ≠ [] ∧ '/' ∉ part) :
    (joinComponents parts).head? ≠ some '/' := by
  match parts with
  | [] => simp [joinComponents]
  | [part] =>
      exact fun hhead => (hparts part List.mem_cons_self).2 (List.mem_of_head? hhead)
  | (part :: next :: others) =>
      obtain ⟨hne, hslash⟩ := hparts part List.mem_cons_self
      obtain ⟨c, rest, rfl⟩ := List.exists_cons_of_ne_nil hne
      intro hhead
      obtain rfl : c = '/' := by simpa [joinComponents] using hhead
      exact hslash List.mem_cons_self

/-- **A path in normal form is its own normal form.** -/
theorem normalize_normalize (path : List Char) : normalize (normalize path) = normalize path := by
  have hnormal := normal_normalComponents path
  have hhead : (joinComponents (normalComponents path)).head? ≠ some '/' :=
    head?_joinComponents fun part hmem => hnormal.slashless part (List.mem_reverse.mpr hmem)
  have hroot := rootSlashes_append hhead path
  have hparts : normalComponents (rootSlashes path ++ joinComponents (normalComponents path))
      = normalComponents path := by
    show List.reverse (List.foldl _ _ (components _)) = _
    rw [foldl_components_append, hroot, hnormal.foldl_components, List.reverse_reverse]
  have hshown : normalize path = if (rootSlashes path ++ joinComponents
      (normalComponents path)).isEmpty then ['.']
    else rootSlashes path ++ joinComponents (normalComponents path) := rfl
  by_cases hempty : (rootSlashes path ++ joinComponents (normalComponents path)).isEmpty = true
  · rw [hshown, if_pos hempty]
    rfl
  · rw [hshown, if_neg hempty, normalize, hroot, hparts, if_neg hempty]

/-- A string in normal form is its own normal form. -/
theorem normalizeString_ofList_normalize (path : List Char) :
    normalizeString (String.ofList (normalize path)) = String.ofList (normalize path) := by
  rw [normalizeString, String.toList_ofList, normalize_normalize]

end Stencil.Path
