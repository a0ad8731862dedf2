import Stencil.Proofs.Composition.Ancestry
import Stencil.Proofs.Composition.Lineless
import Stencil.Proofs.Grammar.Switches
import Stencil.Proofs.Lexer.Bridges

/-! # Crossings — reading a text with and without a blank line

    One template is read three times: as it is, with a blank line put into a gap,
    and cut off at the gap.  Above the gap the three readings are in step; the
    one of the text that is cut off stops in an attribute list if the gap lies in
    one (`Breaks`), and for the other two nothing differs but line numbers once
    the gap is behind them.  Where lines are read as they stand, reading may come
    to the gap instead (`Gap.Spent`), and nothing is said of what follows.

    `Crosses` says this of a reader, and holds of a joined reader if it holds of
    its parts.  A reader that does not look at the tokens only has to do the same
    to what the templates share (`Blind`). -/

namespace Stencil

open Lexer

/-! ## States that differ in line numbers -/

/-- States that differ in line numbers, the lexer apart. -/
structure Progress.Shares (progress other : Progress) : Prop where
  rawBase : progress.rawBase = other.rawBase
  layout : progress.layout = other.layout
  assembly : progress.assembly.Like other.assembly

namespace Progress.Shares

variable {progress middle other : Progress}

theorem refl (progress : Progress) : progress.Shares progress :=
  ⟨rfl, rfl, .refl progress.assembly⟩

theorem symm (h : progress.Shares other) : other.Shares progress :=
  ⟨h.rawBase.symm, h.layout.symm, h.assembly.symm⟩

theorem trans (h : progress.Shares middle) (hlast : middle.Shares other) : progress.Shares other :=
  ⟨h.rawBase.trans hlast.rawBase, h.layout.trans hlast.layout, h.assembly.trans hlast.assembly⟩

end Progress.Shares

/-- States that differ in line numbers. -/
structure Progress.Like (progress other : Progress) : Prop extends progress.Shares other where
  lexer : progress.lexer.Like other.lexer

/-- Three readings above a gap: of the text, of the text with the blank line, and of the text that
    is cut off. -/
structure Gap.Parts (gap : Gap) (mode : Mode) (progress wide short : Progress) : Prop where
  mode : short.lexer.mode = mode
  text : progress.lexer.Like (short.lexer.withTail gap.rest)
  widened : wide.lexer.Like (short.lexer.withTail gap.wide)
  shares : progress.Shares wide
  cut : progress.Shares short

namespace Parse

variable {α β : Type} {gap : Gap} {place : Option Gap} {mode : Mode}

/-- The reading of the text that is cut off stops in an attribute list, or has too little fuel. -/
def Breaks (outcome : EStateM.Result Fault Progress α) : Prop :=
  ∃ fault after, outcome = .error fault after
    ∧ (fault.cause = .lexical .unterminatedAttributes ∨ fault.cause = .exhausted)

/-- What comes of three readings that were in step, when the one of the text as it is gives
    `result` in the state `after`. -/
inductive Comes (gap : Gap) (mode : Mode) (same : α → α → Prop) (result : α) (after : Progress)
    (wider cut : EStateM.Result Fault Progress α) : Prop where
  | breaks (stops : Breaks cut)
  | inStep {result' result'' : α} {wide short : Progress} (widened : wider = .ok result' wide)
      (cutOff : cut = .ok result'' short) (results : same result result')
      (results' : same result result'') (parts : gap.Parts mode after wide short)
  | past {result' : α} {wide : Progress} (between : mode = .markup)
      (widened : wider = .ok result' wide) (results : same result result') (like : after.Like wide)
  | spent (raw : mode = .raw) (raw' : after.lexer.mode = .raw) (left : gap.Spent after.lexer)

/-- A reader of the text, one of the text with the blank line, and one of the text that is cut
    off. -/
structure Crosses (place : Option Gap) (mode : Mode) (same : α → α → Prop)
    (reader wider cut : Parse α) : Prop where
  behind : ∀ ⦃progress other result after⦄, progress.Like other →
    reader progress = .ok result after →
      ∃ result' after', wider other = .ok result' after' ∧ same result result' ∧ after.Like after'
  above : ∀ gap ∈ place, ∀ ⦃progress wide short result after⦄,
    gap.Parts mode progress wide short → reader progress = .ok result after →
      Comes gap mode same result after (wider wide) (cut short)
  spent : ∀ gap ∈ place, mode = .raw → ∀ ⦃progress result after⦄, progress.lexer.mode = .raw →
    gap.Spent progress.lexer → reader progress = .ok result after →
      after.lexer.mode = .raw ∧ gap.Spent after.lexer

/-! ## Rules -/

section Rules

variable {same : α → α → Prop} {goal : β → β → Prop} {reader wider cut : Parse α}

theorem crosses_pure {result result' result'' : α} (h : same result result')
    (h' : same result result'') :
    Crosses place mode same (pure result) (pure result') (pure result'') where
  behind := by
    rintro progress other _ _ hlike ⟨⟩
    exact ⟨result', other, rfl, h, hlike⟩
  above := by
    rintro gap - progress wide short _ _ hparts ⟨⟩
    exact .inStep rfl rfl h h' hparts
  spent := by
    rintro gap - - progress _ _ hmode hspent ⟨⟩
    exact ⟨hmode, hspent⟩

/-- A reader that never succeeds. -/
theorem crosses_of_error (h : ∀ progress, ∃ fault after, reader progress = .error fault after) :
    Crosses place mode same reader wider cut where
  behind := by
    intro progress other result after _ hrun
    obtain ⟨_, _, herror⟩ := h progress
    cases hrun.symm.trans herror
  above := by
    intro gap _ progress wide short result after _ hrun
    obtain ⟨_, _, herror⟩ := h progress
    cases hrun.symm.trans herror
  spent := by
    intro gap _ _ progress result after _ _ hrun
    obtain ⟨_, _, herror⟩ := h progress
    cases hrun.symm.trans herror

theorem crosses_fail {template : Template} {cause : Cause} {line : Int} :
    Crosses place mode same (fail template cause line) wider cut :=
  crosses_of_error fun _ => ⟨_, _, rfl⟩

theorem crosses_throw {fault : Fault} : Crosses place mode same (throw fault) wider cut :=
  crosses_of_error fun _ => ⟨_, _, rfl⟩

theorem crosses_fail_bind {template : Template} {cause : Cause} {line : Int}
    {next : β → Parse α} :
    Crosses place mode same (fail template cause line >>= next) wider cut :=
  crosses_of_error fun _ => ⟨_, _, rfl⟩

/-- The reader of the text that is cut off may have too little fuel. -/
theorem Crosses.short (h : Crosses place mode same reader wider cut) :
    Crosses place mode same reader wider (throw ⟨.exhausted, {}⟩) where
  behind := h.behind
  above := fun _ _ _ _ _ _ _ _ _ => .breaks ⟨_, _, rfl, .inr rfl⟩
  spent := h.spent

theorem Breaks.bind {next : α → Parse β} {short : Progress} (h : Breaks (cut short)) :
    Breaks ((cut >>= next) short) := by
  obtain ⟨fault, after, hcut, hcause⟩ := h
  exact ⟨fault, after, bind_eq_of_error hcut, hcause⟩

theorem Crosses.bind [Std.Refl same] {next next' next'' : α → Parse β}
    (h : Crosses place mode same reader wider cut)
    (hnext : ∀ result result' result'', same result result' → same result result'' →
      Crosses place mode goal (next result) (next' result') (next'' result'')) :
    Crosses place mode goal (reader >>= next) (wider >>= next') (cut >>= next'') where
  behind := by
    intro progress other last done hlike hrun
    obtain ⟨result, middle, hfirst, hrest⟩ := bind_eq_ok hrun
    obtain ⟨result', middle', hfirst', hsame, hmiddle⟩ := h.behind hlike hfirst
    obtain ⟨last', done', hrest', hgoal, hdone⟩ :=
      (hnext result result' result' hsame hsame).behind hmiddle hrest
    exact ⟨last', done', (bind_eq_of_ok hfirst').trans hrest', hgoal, hdone⟩
  above := by
    intro gap hgap progress wide short last done hparts hrun
    obtain ⟨result, middle, hfirst, hrest⟩ := bind_eq_ok hrun
    cases h.above gap hgap hparts hfirst with
    | breaks stops => exact .breaks stops.bind
    | inStep widened cutOff results results' parts =>
        rw [bind_eq_of_ok widened, bind_eq_of_ok cutOff]
        exact (hnext _ _ _ results results').above gap hgap parts hrest
    | past between widened results like =>
        -- the reading of the text that is cut off is of no use any more
        obtain ⟨last', done', hrest', hgoal, hdone⟩ :=
          (hnext _ _ _ results results).behind like hrest
        exact .past between ((bind_eq_of_ok widened).trans hrest') hgoal hdone
    | spent raw raw' left =>
        have hrefl : same result result := Std.Refl.refl result
        obtain ⟨hraw, hleft⟩ :=
          (hnext result result result hrefl hrefl).spent gap hgap raw raw' left hrest
        exact .spent raw hraw hleft
  spent := by
    intro gap hgap hraw progress last done hmode hspent hrun
    obtain ⟨result, middle, hfirst, hrest⟩ := bind_eq_ok hrun
    obtain ⟨hmode', hspent'⟩ := h.spent gap hgap hraw hmode hspent hfirst
    have hrefl : same result result := Std.Refl.refl result
    exact (hnext result result result hrefl hrefl).spent gap hgap hraw hmode' hspent' hrest

/-- Readers with equal results, and those that go on with them. -/
theorem Crosses.andThen {next next' next'' : α → Parse β}
    (h : Crosses place mode Eq reader wider cut)
    (hnext : ∀ result, Crosses place mode goal (next result) (next' result) (next'' result)) :
    Crosses place mode goal (reader >>= next) (wider >>= next') (cut >>= next'') :=
  h.bind fun result _ _ heq heq' => heq ▸ heq' ▸ hnext result

theorem Crosses.ite {condition : Prop} [Decidable condition] {other other' other'' : Parse α}
    (h : Crosses place mode same reader wider cut)
    (hother : Crosses place mode same other other' other'') :
    Crosses place mode same (if condition then reader else other)
      (if condition then wider else other') (if condition then cut else other'') := by
  split
  · exact h
  · exact hother

theorem Crosses.imp {weak : α → α → Prop} (h : Crosses place mode same reader wider cut)
    (himp : ∀ result result', same result result' → weak result result') :
    Crosses place mode weak reader wider cut where
  behind := by
    intro progress other result after hlike hrun
    obtain ⟨result', after', hrun', hsame, hafter⟩ := h.behind hlike hrun
    exact ⟨result', after', hrun', himp _ _ hsame, hafter⟩
  above := by
    intro gap hgap progress wide short result after hparts hrun
    cases h.above gap hgap hparts hrun with
    | breaks stops => exact .breaks stops
    | inStep widened cutOff results results' parts =>
        exact .inStep widened cutOff (himp _ _ results) (himp _ _ results') parts
    | past between widened results like => exact .past between widened (himp _ _ results) like
    | spent raw raw' left => exact .spent raw raw' left
  spent := h.spent

theorem Crosses.discard [Std.Refl same] (h : Crosses place mode same reader wider cut) :
    Crosses place mode Eq (Functor.discard reader) (Functor.discard wider)
      (Functor.discard cut) := by
  rw [← bind_pure (Functor.discard reader), ← bind_pure (Functor.discard wider),
    ← bind_pure (Functor.discard cut), discard_bind, discard_bind, discard_bind]
  exact h.bind fun _ _ _ _ _ => crosses_pure rfl rfl

end Rules

/-! ## Readers that do not look at the tokens -/


/-- Readers that leave the lexer as it is, and do the same to the rest of the state. -/
def Blind (same : α → α → Prop) (reader other : Parse α) : Prop :=
  ∀ ⦃progress progress' result after⦄, progress.Shares progress' →
    reader progress = .ok result after → after.lexer = progress.lexer
      ∧ ∃ result' after', other progress' = .ok result' after' ∧ same result result'
        ∧ after'.lexer = progress'.lexer ∧ after.Shares after'

section Blind

variable {same : α → α → Prop} {reader wider cut : Parse α}

theorem Blind.crosses (h : Blind same reader wider) (h' : Blind same reader cut) :
    Crosses place mode same reader wider cut where
  behind := by
    intro progress other result after hlike hrun
    obtain ⟨hlexer, result', after', hrun', hsame, hlexer', hshares⟩ := h hlike.toShares hrun
    exact ⟨result', after', hrun', hsame, hshares, hlexer ▸ hlexer' ▸ hlike.lexer⟩
  above := by
    intro gap _ progress wide short result after hparts hrun
    obtain ⟨hlexer, result', wide', hwider, hsame, hwide, hshares⟩ := h hparts.shares hrun
    obtain ⟨-, result'', short', hcut, hsame', hshort, hshares'⟩ := h' hparts.cut hrun
    refine .inStep hwider hcut hsame hsame' ⟨?_, ?_, ?_, hshares, hshares'⟩
    · rw [hshort]
      exact hparts.mode
    · rw [hlexer, hshort]
      exact hparts.text
    · rw [hwide, hshort]
      exact hparts.widened
  spent := by
    intro gap _ _ progress result after hmode hspent hrun
    obtain ⟨hlexer, -⟩ := h (.refl progress) hrun
    rw [hlexer]
    exact ⟨hmode, hspent⟩

theorem blind_assemble {action other : Assemble α} (h : Mirrors same action other) :
    Blind same (assemble action) (assemble other) := by
  intro progress progress' result after hshares hrun
  unfold assemble at hrun
  cases haction : action progress.assembly with
  | error fault assembly =>
      rw [haction] at hrun
      cases hrun
  | ok value assembly =>
      rw [haction] at hrun
      cases hrun
      obtain ⟨result', assembly', hother, hsame, hlike⟩ := h hshares.assembly haction
      refine ⟨rfl, result', { progress' with assembly := assembly' }, ?_, hsame, rfl,
        hshares.rawBase, hshares.layout, hlike⟩
      unfold assemble
      rw [hother]

/-- Changes of what the templates share. -/
theorem blind_modifyAssembly {f g : Assembly → Assembly}
    (h : ∀ assembly other : Assembly, assembly.Like other → (f assembly).Like (g other)) :
    Blind Eq (modifyAssembly f) (modifyAssembly g) := by
  rintro progress progress' _ _ hshares ⟨⟩
  exact ⟨rfl, _, _, rfl, rfl, rfl, hshares.rawBase, hshares.layout, h _ _ hshares.assembly⟩

theorem blind_tell {channel message : String} :
    Blind Eq (tell channel message) (tell channel message) :=
  blind_modifyAssembly fun _ _ hlike =>
    ⟨hlike.store, hlike.registry, hlike.mixins, hlike.templates⟩

theorem blind_newNode {line line' : Int} {kind : Kind BlockId}
    {blocks blocks' : List (Block BlockId Draft)} {code code' : Option Draft}
    (h : blocks.map Block.lineless = blocks'.map Block.lineless)
    (hcode : code.map Node.lineless = code'.map Node.lineless) :
    Blind Node.Like (newNode line kind blocks code) (newNode line' kind blocks' code') := by
  rintro progress progress' _ _ hshares ⟨⟩
  refine ⟨rfl, _, _, rfl, ?_, rfl, hshares.rawBase, hshares.layout,
    congrArg Store.taken hshares.assembly.store, hshares.assembly.registry,
    hshares.assembly.mixins, hshares.assembly.templates⟩
  have hchildren : ∀ (code : Option Draft) (blocks : List (Block BlockId Draft)),
      (code.toList ++ blocks.map Node.ofBlock).map Node.lineless
        = (code.map Node.lineless).toList ++ (blocks.map Block.lineless).map Node.ofBlock := by
    intro code blocks
    rw [List.map_append, List.map_map, List.map_map]
    congr 1
    · cases code <;> rfl
    · exact List.map_congr_left fun block _ => Node.lineless_ofBlock block
  rw [Node.Like, Node.lineless_make, Node.lineless_make, hchildren, hchildren, h, hcode,
    hshares.assembly.next]

theorem blind_newBlock {line line' : Int} {nodes nodes' : List Draft} {props : BlockProps}
    (h : nodes.map Node.lineless = nodes'.map Node.lineless) :
    Blind Block.Like (newBlock line nodes props) (newBlock line' nodes' props) := by
  rintro progress progress' _ _ hshares ⟨⟩
  refine ⟨rfl, _, _, rfl, ?_, rfl, hshares.rawBase, hshares.layout,
    congrArg Store.taken hshares.assembly.store, hshares.assembly.registry,
    hshares.assembly.mixins, hshares.assembly.templates⟩
  exact Node.like_of_parts hshares.assembly.next rfl h

end Blind

/-! ## Tokens -/

section Tokens

variable {template template' template'' : Template}

/-- An action on the lexer, and the state after it. -/
theorem onLexer_of_ok {action : Lexer → Outcome α} {progress : Progress} {result : α}
    {after : Lexer} (h : action progress.lexer = (.ok result, after)) :
    ∃ last, onLexer template action progress = .ok result last ∧ last.lexer = after
      ∧ progress.Shares last := by
  unfold onLexer
  rw [h]
  exact ⟨_, rfl, rfl, rfl, rfl, rfl, rfl, rfl, rfl⟩

theorem breaks_onLexer {action : Lexer → Outcome α} {progress : Progress}
    (h : (action progress.lexer).Unclosed) : Breaks (onLexer template action progress) := by
  obtain ⟨fault, hfault, hcause⟩ := h
  unfold onLexer
  rcases haction : action progress.lexer with ⟨found | _, after⟩
  · rw [haction] at hfault
    cases hfault
    exact ⟨_, _, rfl, .inl (congrArg Cause.lexical hcause)⟩
  · rw [haction] at hfault
    cases hfault

theorem shares_of_onLexer {action : Lexer → Outcome α} {progress after : Progress} {result : α}
    (h : onLexer template action progress = .ok result after) : progress.Shares after := by
  obtain ⟨last, hlast, -, hshares⟩ :
      ∃ last, onLexer template action progress = .ok result last ∧ last.lexer = after.lexer
        ∧ progress.Shares last := onLexer_of_ok (onLexer_eq_ok h)
  cases h.symm.trans hlast
  exact hshares

/-- An action on the lexer that is bridged at every gap, and does not ask for line numbers. -/
structure Bridged (action : Lexer → Outcome Token) : Prop where
  like : ∀ lexer other, lexer.Like other →
    Outcome.Like Token.Like (action lexer) (action other)
  bridges : ∀ (gap : Gap) (lexer : Lexer), gap.Bridges Token.Like action lexer
  mode : ∀ lexer, (action lexer).2.mode = lexer.mode
  spent : ∀ (gap : Gap) (lexer : Lexer), lexer.mode = .raw → gap.Spent lexer →
    gap.Spent (action lexer).2

section Bridged

variable {action : Lexer → Outcome Token}

/-- Lexers that are alike give tokens that are alike, and so do the readers. -/
theorem Bridged.onLexer_like (h : Bridged action) {progress other after : Progress}
    {result : Token} {lexer : Lexer} (hlexer : progress.lexer.Like lexer)
    (hother : Outcome.Like Token.Like (action lexer) (action other.lexer))
    (hshares : progress.Shares other)
    (hrun : onLexer template action progress = .ok result after) :
    ∃ result' after', onLexer template' action other = .ok result' after'
      ∧ result.Like result' ∧ after.Like after' := by
  have hfound := h.like _ _ hlexer
  rw [onLexer_eq_ok hrun] at hfound
  obtain ⟨token, middle, htoken, hsame, hmiddle⟩ := hfound.of_ok
  rw [htoken] at hother
  obtain ⟨token', reached, hreached, hsame', hlexers⟩ := hother.of_ok
  obtain ⟨last, hlast, rfl, hlasts⟩ := onLexer_of_ok hreached
  exact ⟨token', last, hlast, hsame.trans hsame',
    ((shares_of_onLexer hrun).symm.trans hshares).trans hlasts, hmiddle.trans hlexers⟩

/-- Where the answer depends on the text above alone, the three readers stay in step. -/
theorem Bridged.inStep (h : Bridged action) {gap : Gap} {progress wide short after : Progress}
    {result : Token} (hparts : gap.Parts mode progress wide short)
    (answer : ∀ tail, EndsLine tail →
      action (short.lexer.withTail tail) = (action short.lexer).withTail tail)
    (hrun : onLexer template action progress = .ok result after) :
    Comes gap mode Token.Like result after (onLexer template' action wide)
      (onLexer template'' action short) := by
  have hfrom := (shares_of_onLexer hrun).symm
  have hfound := h.like _ _ hparts.text
  rw [onLexer_eq_ok hrun, answer gap.rest gap.endsLine_rest] at hfound
  have hwide := h.like _ _ hparts.widened.symm
  rw [answer gap.wide gap.endsLine_wide] at hwide
  rcases hcut : action short.lexer with ⟨fault | text, left⟩
  · rw [hcut] at hfound
    obtain ⟨_, _, hclash, -, -⟩ := hfound.of_ok
    cases hclash
  rw [hcut] at hfound hwide
  obtain ⟨_, _, ⟨⟩, hsame, hlexer⟩ := hfound.of_ok
  obtain ⟨token, reached, hwidened, hsame', hreached⟩ := hwide.of_ok
  obtain ⟨last, hlast, rfl, hshares⟩ := onLexer_of_ok hwidened
  obtain ⟨last', hlast', rfl, hshares'⟩ := onLexer_of_ok hcut
  have hkept := h.mode short.lexer
  rw [hcut] at hkept
  exact .inStep hlast hlast' (hsame.trans hsame') hsame
    ⟨hkept.trans hparts.mode, hlexer, hreached.symm, (hfrom.trans hparts.shares).trans hshares,
      (hfrom.trans hparts.cut).trans hshares'⟩

/-- **An action on the lexer** crosses the gap if it is bridged. -/
theorem Bridged.crosses (h : Bridged action) :
    Crosses place mode Token.Like (onLexer template action) (onLexer template' action)
      (onLexer template'' action) where
  behind := by
    intro progress other result after hlike hrun
    exact h.onLexer_like (.refl progress.lexer) (h.like _ _ hlike.lexer) hlike.toShares hrun
  above := by
    intro gap _ progress wide short result after hparts hrun
    cases h.bridges gap short.lexer with
    | unclosed stops => exact .breaks (breaks_onLexer stops)
    | above answer => exact h.inStep hparts answer hrun
    | across between answer =>
        have hwide := h.like _ _ hparts.widened.symm
        have hacross : Outcome.Like Token.Like (action (short.lexer.withTail gap.rest))
            (action wide.lexer) := answer.trans hwide
        obtain ⟨token, last, hlast, hsame, hlasts⟩ :=
          h.onLexer_like hparts.text hacross hparts.shares hrun
        exact .past (hparts.mode.symm.trans between) hlast hsame hlasts
    | spent raw left =>
        have hfound := h.like _ _ hparts.text
        rw [onLexer_eq_ok hrun] at hfound
        obtain ⟨text, lexer, htext, -, hlexer⟩ := hfound.of_ok
        have hkept := h.mode (short.lexer.withTail gap.rest)
        rw [htext] at hkept left
        refine .spent (hparts.mode.symm.trans raw) (hlexer.mode.trans (hkept.trans raw)) ?_
        intro above habove
        exact left above (hlexer.input.symm.trans habove)
  spent := by
    intro gap _ _ progress result after hraw hleft hrun
    have hlexer := onLexer_eq_ok hrun
    have hafter : after.lexer = (action progress.lexer).2 := by rw [hlexer]
    rw [hafter]
    exact ⟨(h.mode _).trans hraw, h.spent gap _ hraw hleft⟩

theorem bridged_peekAt (offset : Nat) : Bridged (·.peekAt offset) where
  like := fun _ _ h => peekAt_like h offset
  bridges := fun gap lexer => peekAt_bridges gap lexer offset
  mode := fun lexer => peekAt_mode lexer offset
  spent := by
    intro gap lexer hraw hleft
    rw [peekAt_after]
    exact Gap.Spent.stock _ hleft hraw

theorem bridged_advance : Bridged Lexer.advance where
  like := fun _ _ h => advance_like h
  bridges := advance_bridges
  mode := advance_mode
  spent := by
    intro gap lexer hraw hleft
    unfold Lexer.advance
    split
    · exact hleft
    · split
      · exact hleft
      · exact Gap.Spent.next hleft hraw

end Bridged

/-- The lexers that are alike have as much left. -/
theorem potential_like {lexer other : Lexer} (h : lexer.Like other) :
    lexer.potential = other.potential := by
  have hcount : ∀ {tokens tokens' : List Token},
      tokens.map Token.lexeme = tokens'.map Token.lexeme →
        countOpen tokens = countOpen tokens' := by
    intro tokens tokens' htokens
    have hmap : ∀ tokens : List Token, countOpen tokens
        = ((tokens.map Token.lexeme).filter fun lexeme => lexeme.kind != .eos).length := by
      intro tokens
      rw [List.filter_map, List.length_map]
      rfl
    rw [hmap, hmap, htokens]
  rw [potential, potential, h.input, h.levels, hcount h.pending, hcount h.stash,
    hcount h.deferred]

theorem potential_le_wide (gap : Gap) (lexer : Lexer) :
    (lexer.withTail gap.rest).potential ≤ (lexer.withTail gap.wide).potential := by
  have hle : (lexer.input ++ gap.rest).length ≤ (lexer.input ++ gap.wide).length := by
    simp only [Gap.rest, Gap.wide, List.length_append, List.length_cons]
    omega
  unfold Lexer.potential
  dsimp only [Lexer.withTail]
  omega

/-- **A bound on the tokens** is no smaller for the text with the blank line. -/
theorem Crosses.bounded {same : α → α → Prop} {next next' next'' : Nat → Parse α}
    (h : ∀ fuel fuel' fuel'', fuel ≤ fuel' →
      Crosses place mode same (next fuel) (next' fuel') (next'' fuel'')) :
    Crosses place mode same (tokenBound >>= next) (tokenBound >>= next')
      (tokenBound >>= next'') where
  behind := by
    intro progress other result after hlike hrun
    exact (h _ _ 0 (Nat.le_of_eq (congrArg (· + 1) (potential_like hlike.lexer)))).behind hlike hrun
  above := by
    intro gap hgap progress wide short result after hparts hrun
    have hle : progress.lexer.potential ≤ wide.lexer.potential := by
      rw [potential_like hparts.text, potential_like hparts.widened]
      exact potential_le_wide gap short.lexer
    exact (h _ _ _ (Nat.succ_le_succ hle)).above gap hgap hparts hrun
  spent := by
    intro gap hgap hraw progress result after hmode hspent hrun
    exact (h _ _ 0 (Nat.le_refl _)).spent gap hgap hraw hmode hspent hrun

theorem crosses_peekAt (offset : Nat) :
    Crosses place mode Token.Like (peekAt template offset) (peekAt template' offset)
      (peekAt template'' offset) :=
  (bridged_peekAt offset).crosses

theorem crosses_peek :
    Crosses place mode Token.Like (peek template) (peek template') (peek template'') :=
  crosses_peekAt 0

theorem crosses_advance :
    Crosses place mode Token.Like (advance template) (advance template') (advance template'') :=
  bridged_advance.crosses

end Tokens

end Parse

end Stencil
