import Mathlib.Logic.Relation
import Stencil.Node.Inline

/-! # Inline bodies — what is found in a body that fits on a line

    Whether a body fits on the line of its element is decided by two rules.  What
    is in it must be texts, inline elements and blocks all the way down, and no two
    texts may stand next to each other; the second rule is about the nodes of the
    body itself and does not go down.

    Of an element whose body fits, every element found in that body is therefore
    inline and holds nothing but texts, inline elements and blocks, and its own
    body fits if and only if no two texts stand next to each other in it
    (`canInline_iff_apart`).  That they do not is not inherited: a span of two
    texts does not fit on its line, but is all that a paragraph needs to hold to
    fit on one (`canInline_not_inherited`). -/

namespace Stencil.Node

variable {ι : Type} {node inner : Node ι}

/-- The nodes of a block, or those of the body of an element. -/
def contents (node : Node ι) : List (Node ι) :=
  match node.kind with
  | .block _ _ => node.children
  | .tag _ _ => (node.body?.map Block.nodes).getD []
  | _ => []

/-- One node is found in the other, at any depth, through blocks and the bodies of elements. -/
def Holds : Node ι → Node ι → Prop :=
  Relation.TransGen fun outer inner => inner ∈ outer.contents

/-- Two texts stand next to each other in a list. -/
def Adjacent (nodes : List (Node ι)) : Prop :=
  ∃ before first second after, nodes = before ++ first :: second :: after
    ∧ first.isText = true ∧ second.isText = true

theorem hasAdjacentTexts_iff (nodes : List (Node ι)) :
    hasAdjacentTexts nodes = true ↔ Adjacent nodes := by
  constructor
  · intro h
    induction nodes using hasAdjacentTexts.induct with
    | case1 first second rest ih =>
        rw [hasAdjacentTexts, Bool.or_eq_true, Bool.and_eq_true] at h
        rcases h with h | h
        · exact ⟨[], first, second, rest, rfl, h⟩
        · obtain ⟨before, one, other, after, heq, htexts⟩ := ih h
          exact ⟨first :: before, one, other, after, congrArg (first :: ·) heq, htexts⟩
    | case2 nodes hshort =>
        rw [hasAdjacentTexts.eq_2 nodes hshort] at h
        exact nomatch h
  · rintro ⟨before, first, second, after, rfl, hfirst, hsecond⟩
    induction before with
    | nil => rw [List.nil_append, hasAdjacentTexts, hfirst, hsecond]; rfl
    | cons node before ih =>
        cases before with
        | nil =>
            rw [List.nil_append] at ih
            rw [List.singleton_append, hasAdjacentTexts, ih, Bool.or_true]
        | cons other before =>
            rw [List.cons_append] at ih
            rw [List.cons_append, List.cons_append, hasAdjacentTexts, ih, Bool.or_true]

theorem allSafe_iff (nodes : List (Node ι)) :
    allSafe nodes = true ↔ ∀ node ∈ nodes, inlineSafe node = true := by
  induction nodes with
  | nil => simp [allSafe]
  | cons node nodes ih => rw [allSafe, Bool.and_eq_true, ih, List.forall_mem_cons]

/-- The blocks of a list that is safe are safe. -/
theorem allSafe_of_bodySafe {nodes : List (Node ι)} (h : bodySafe nodes = true) :
    ∀ block ∈ nodes.filterMap block?, allSafe block.nodes = true := by
  induction nodes with
  | nil => exact fun _ hmem => nomatch hmem
  | cons node nodes ih =>
      rw [bodySafe, Bool.and_eq_true] at h
      intro block hmem
      rw [List.mem_filterMap] at hmem
      obtain ⟨other, hother, hblock⟩ := hmem
      rcases List.mem_cons.mp hother with rfl | hother
      · obtain ⟨own, line, kind, children⟩ := other
        cases kind <;> simp only [block?, Option.some.injEq, reduceCtorEq] at hblock
        subst hblock
        simpa [isBlock, block?, inlineSafe] using h.1
      · exact ih h.2 block (List.mem_filterMap.mpr ⟨other, hother, hblock⟩)

/-- What is safe holds only what is safe. -/
theorem inlineSafe_of_mem_contents (hsafe : inlineSafe node = true) (hmem : inner ∈ node.contents) :
    inlineSafe inner = true := by
  obtain ⟨own, line, kind, children⟩ := node
  cases kind with
  | block id props => exact (allSafe_iff children).mp hsafe inner hmem
  | tag element interpolated =>
      rw [inlineSafe, Bool.and_eq_true] at hsafe
      have hmem : inner ∈ (((children.filterMap block?).head?).map Block.nodes).getD [] := hmem
      cases hbody : (children.filterMap block?).head? with
      | none => rw [hbody] at hmem; exact nomatch hmem
      | some block =>
          rw [hbody] at hmem
          have hblock := allSafe_of_bodySafe hsafe.2 block (List.mem_of_head? hbody)
          exact (allSafe_iff block.nodes).mp hblock inner hmem
  | _ => exact nomatch hmem

theorem inlineSafe_of_holds (hsafe : ∀ child ∈ node.contents, inlineSafe child = true)
    (hholds : Holds node inner) : inlineSafe inner = true := by
  induction hholds with
  | single hmem => exact hsafe _ hmem
  | tail _ hmem ih => exact inlineSafe_of_mem_contents ih hmem

/-- The two rules, for the body of an element. -/
theorem canInline_iff {element : Element} {interpolated : Bool}
    (hkind : node.kind = .tag element interpolated) :
    node.canInline = true
      ↔ (∀ child ∈ node.contents, inlineSafe child = true) ∧ ¬ Adjacent node.contents := by
  have hcontents : node.contents = (node.body?.map Block.nodes).getD [] := by
    rw [contents, hkind]
  rw [canInline, ← hcontents, ← hasAdjacentTexts_iff, ← allSafe_iff]
  match node.contents with
  | [] => simp [allSafe, hasAdjacentTexts]
  | [only] => simp [allSafe, hasAdjacentTexts]
  | first :: second :: rest => simp

theorem kind_of_inlineSafe (hsafe : inlineSafe node = true) :
    (node.isText || node.isInline || node.isBlock) = true := by
  obtain ⟨own, line, kind, children⟩ := node
  cases kind <;> simp_all [inlineSafe, isText, isInline, isBlock, block?, Node.kind]

/-- **A body that fits on a line, further down.**  Of an element whose body fits on its line, all
    that is found in that body is a text, an inline element or a block, and the body of an element
    found there fits if and only if no two texts stand next to each other in it. -/
theorem canInline_iff_apart {element : Element} {interpolated : Bool}
    (hkind : node.kind = .tag element interpolated) (hfits : node.canInline = true)
    (hholds : Holds node inner) :
    (inner.isText || inner.isInline || inner.isBlock) = true
      ∧ ∀ other computed, inner.kind = .tag other computed →
        other.isInline = true ∧ (inner.canInline = true ↔ ¬ Adjacent inner.contents) := by
  have hsafe : inlineSafe inner = true :=
    inlineSafe_of_holds ((canInline_iff hkind).mp hfits).1 hholds
  refine ⟨kind_of_inlineSafe hsafe, fun other computed hother => ⟨?_, ?_⟩⟩
  · have hinner := kind_of_inlineSafe hsafe
    obtain ⟨own, line, kind, children⟩ := inner
    obtain rfl : kind = .tag other computed := hother
    simpa [isText, isInline, isBlock, block?, Node.kind] using hinner
  · rw [canInline_iff hother]
    exact and_iff_right fun child hchild => inlineSafe_of_mem_contents hsafe hchild

/-- An element with a body. -/
def wrapped (name : String) (nodes : List Tree) : Tree :=
  withParts 1 (.tag { name } false) none [{ id := (), nodes }]

/-- A span of two texts. -/
def crowded : Tree := wrapped "span" [leaf 1 (.text "a"), leaf 1 (.text "b")]

/-- A span in a paragraph, behind a text and in a block. -/
theorem canInline_iff_apart_crowded :
    (wrapped "p" [leaf 1 (.text "a"), ofBlock { id := (), nodes := [crowded] }]).canInline = true
      ∧ (crowded.canInline = true ↔ ¬ Adjacent crowded.contents) := by
  have hfits : (wrapped "p" [leaf 1 (.text "a"),
      ofBlock { id := (), nodes := [crowded] }]).canInline = true := by decide
  have hholds : Holds (wrapped "p" [leaf 1 (.text "a"),
      ofBlock { id := (), nodes := [crowded] }]) crowded :=
    .tail (.single (.tail _ (.head _))) (.head _)
  exact ⟨hfits, ((canInline_iff_apart rfl hfits hholds).2 _ _ rfl).2⟩

/-- That a body fits on its line is not inherited: a paragraph may hold a span of two texts. -/
theorem canInline_not_inherited :
    (wrapped "p" [crowded]).canInline = true ∧ Holds (wrapped "p" [crowded]) crowded
      ∧ crowded.canInline = false ∧ Adjacent crowded.contents :=
  ⟨by decide, .single (.head _), by decide, [], _, _, [], rfl, rfl, rfl⟩

end Stencil.Node
