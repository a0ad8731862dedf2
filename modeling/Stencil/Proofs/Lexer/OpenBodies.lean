import Stencil.Proofs.Lexer.RawLines

/-! # Open bodies — the widths of the raw bodies that a lexer is in

    The raw bodies that a reader is in are open levels of the lexer, but for those
    whose outdents are pending (`Bodies`).  A token opens one more body, leads out
    of the innermost one, or leaves them alone (`Turns`), and every step in raw mode
    follows its token (`Bodies.next`).

    A line opens a level only if it is wider than the innermost one that is open,
    also behind a line that came back to a width no level has.  So a body is
    always wider than the bodies around it. -/

namespace Stencil.Lexer

variable {lexer after : Lexer} {token : Token} {widths : List Nat}

/-- What a token does to the open bodies, given by their widths, the innermost one first. -/
inductive Turns (widths : List Nat) (token : Token) : List Nat → Prop where
  | opens {width : Nat} (lexeme : token.lexeme = .indent width)
      (wider : ∀ outer ∈ widths, outer < width) : Turns widths token (width :: widths)
  | closes (kind : token.kind = .outdent) : Turns widths token widths.tail
  | keeps (notIndent : token.kind ≠ .indent) (notOutdent : token.kind ≠ .outdent) :
      Turns widths token widths

/-- A lexer in raw bodies of these widths. -/
structure Bodies (widths : List Nat) (lexer : Lexer) : Prop where
  mode : lexer.mode = .raw
  pending : ∀ t ∈ lexer.pending, t.kind = .outdent
  /-- The levels of the bodies that are left already are not open any more. -/
  levels : ∃ outer, lexer.levels = (widths ++ outer).drop lexer.pending.length

theorem length_takeWhile_pos {levels : List Nat} {width : Nat} (h : width < levels.headD 0) :
    1 ≤ (levels.takeWhile (width < ·)).length := by
  cases levels with
  | nil => exact absurd h (Nat.not_lt_zero width)
  | cons level levels =>
      rw [List.takeWhile_cons_of_pos (by simpa using h)]
      exact Nat.le_add_left 1 _

theorem drop_length_takeWhile (levels : List Nat) (p : Nat → Bool) :
    levels.drop (levels.takeWhile p).length = levels.dropWhile p := by
  have hdrop : (levels.takeWhile p ++ levels.dropWhile p).drop (levels.takeWhile p).length
      = levels.dropWhile p := List.drop_left
  rwa [List.takeWhile_append_dropWhile] at hdrop

/-- One level less, as one body less or one less of the levels around the bodies. -/
theorem exists_tail_append (widths outer : List Nat) :
    ∃ outer', (widths ++ outer).tail = widths.tail ++ outer' := by
  cases widths with
  | nil => exact ⟨outer.tail, rfl⟩
  | cons width widths => exact ⟨outer, rfl⟩

theorem Bodies.takePending {pending : List Token} (h : Bodies widths lexer)
    (hpending : lexer.pending = token :: pending) :
    token.kind = .outdent ∧ Bodies widths.tail { lexer with pending } := by
  obtain ⟨outer, hlevels⟩ := h.levels
  obtain ⟨outer', htail⟩ := exists_tail_append widths outer
  have houtdents := h.pending
  rw [hpending] at houtdents
  obtain ⟨hkind, houtdents⟩ := List.forall_mem_cons.mp houtdents
  refine ⟨hkind, h.mode, houtdents, outer', ?_⟩
  rw [← htail, List.drop_tail]
  rw [hpending] at hlevels
  exact hlevels

/-- **The start of a line** opens a body that is wider than all others, or closes some. -/
theorem Bodies.lineBreak {text : List Char} (h : Bodies widths lexer)
    (hsorted : widths.Pairwise (· > ·)) (hpending : lexer.pending = [])
    (hbreak : lexer.LineBreak text token after) :
    ∃ widths', Turns widths token widths' ∧ Bodies widths' after := by
  obtain ⟨⟨followers, henters, hfollowers⟩, -, hmode, -⟩ := hbreak
  obtain ⟨outer, hlevels⟩ := h.levels
  rw [hpending] at hlevels hfollowers
  replace hlevels : lexer.levels = widths ++ outer := hlevels
  replace hfollowers : after.pending = followers := hfollowers
  have hraw := hmode.trans h.mode
  have houtdents : ∀ t ∈ after.pending, t.kind = .outdent := hfollowers ▸ henters.follower
  generalize hlevels' : after.levels = levels' at henters
  cases henters with
  | blank _ hkind =>
      refine ⟨widths, .keeps (by simp [hkind]) (by simp [hkind]), hraw, houtdents, outer, ?_⟩
      rw [hlevels', hfollowers, hlevels]
      rfl
  | sibling _ _ hkind =>
      refine ⟨widths, .keeps (by simp [hkind]) (by simp [hkind]), hraw, houtdents, outer, ?_⟩
      rw [hlevels', hfollowers, hlevels]
      rfl
  | deeper _ hwider hlexeme =>
      refine ⟨_, .opens hlexeme ?_, hraw, houtdents, outer, ?_⟩
      · rw [hlevels] at hwider
        cases widths with
        | nil => exact nofun
        | cons innermost widths =>
            -- the others are narrower than the innermost body
            have hinnermost : innermost < _ := hwider
            refine List.forall_mem_cons.mpr ⟨hinnermost, fun width hwidth => ?_⟩
            exact Nat.lt_trans ((List.pairwise_cons.mp hsorted).1 width hwidth) hinnermost
      · rw [hlevels', hfollowers, hlevels]
        rfl
  | shallower _ hnarrower hkind =>
      obtain ⟨outer', htail⟩ := exists_tail_append widths outer
      refine ⟨widths.tail, .closes hkind, hraw, houtdents, outer', ?_⟩
      -- there are as many outdents as levels that are closed, this one included
      rw [hlevels', hfollowers, List.length_replicate, ← htail, List.drop_tail, ← hlevels,
        Nat.sub_add_cancel (length_takeWhile_pos hnarrower), drop_length_takeWhile]

/-- **Every step in raw mode** opens a body that is wider than all others, or leads out of the
    innermost one, or leaves the bodies alone. -/
theorem Bodies.next (h : Bodies widths lexer) (hsorted : widths.Pairwise (· > ·))
    (hnext : lexer.next = (.ok token, after)) :
    ∃ widths', Turns widths token widths' ∧ Bodies widths' after := by
  rcases hpending : lexer.pending with - | ⟨first, pending⟩
  · obtain ⟨outer, hlevels⟩ := h.levels
    cases next_raw h.mode hpending hnext with
    | line line rest => exact ⟨widths, .keeps nofun nofun, h.mode, h.pending, outer, hlevels⟩
    | spaces count rest => exact ⟨widths, .keeps nofun nofun, h.mode, h.pending, outer, hlevels⟩
    | lineBreak text _ hbreak => exact h.lineBreak hsorted hpending hbreak
    | close innermost levels _ hopened =>
        obtain ⟨outer', htail⟩ := exists_tail_append widths outer
        refine ⟨widths.tail, .closes rfl, h.mode, h.pending, outer', ?_⟩
        rw [hpending, hopened] at hlevels
        rw [hpending, ← htail]
        exact congrArg List.tail hlevels
    | ended => exact ⟨widths, .keeps nofun nofun, h⟩
  · obtain ⟨hkind, hafter⟩ := h.takePending hpending
    rw [Lexer.next, hpending] at hnext
    cases hnext
    exact ⟨widths.tail, .closes hkind, hafter⟩

end Stencil.Lexer
