import Stencil.Proofs.Grammar.Crossing

/-! # Templates with a gap

    Every reader of the grammar crosses a gap, one lemma for each production.
    Raw bodies come first: they are read in raw mode, where a gap that is reached
    may change what is read, so a template that is read with a guard crosses the
    gap only if every raw body that starts above the gap ends above it
    (`crosses_endsAbove`). -/

namespace Stencil

open Lexer

instance : Std.Refl Token.Like := ⟨fun _ => rfl⟩

instance {ι : Type} : Std.Refl (Node.Like : Node ι → Node ι → Prop) := ⟨fun _ => rfl⟩

instance {ι : Type} : Std.Refl (Block.Like : Block ι (Node ι) → Block ι (Node ι) → Prop) :=
  ⟨fun _ => rfl⟩

instance : Std.Refl Composed.Like := ⟨Composed.Like.refl⟩

/-- Lists of trees that differ in line numbers. -/
def NodesLike (nodes other : List Draft) : Prop :=
  nodes.map Node.lineless = other.map Node.lineless

instance : Std.Refl NodesLike := ⟨fun _ => rfl⟩

theorem NodesLike.cons {node node' : Draft} {nodes nodes' : List Draft} (h : node.Like node')
    (hnodes : NodesLike nodes nodes') : NodesLike (node :: nodes) (node' :: nodes') :=
  congrArg₂ List.cons h hnodes

theorem NodesLike.append {nodes nodes' more more' : List Draft} (h : NodesLike nodes nodes')
    (hmore : NodesLike more more') : NodesLike (nodes ++ more) (nodes' ++ more') := by
  rw [NodesLike, List.map_append, List.map_append, h, hmore]

/-- A state in another mode of the lexer. -/
def Progress.inMode (progress : Progress) (mode : Mode) : Progress :=
  { progress with lexer := { progress.lexer with mode } }

/-- A lexer stands above the gap, and not at the end of a line. -/
def Gap.Above (gap : Gap) (lexer : Lexer) : Prop :=
  gap.rest <:+ lexer.input ∧ lexer.input.head? ≠ some '\n'

instance (gap : Gap) (lexer : Lexer) : Decidable (gap.Above lexer) :=
  inferInstanceAs (Decidable (_ ∧ _))

theorem Gap.Above.not_spent {gap : Gap} {lexer : Lexer} (h : gap.Above lexer) :
    ¬ gap.Spent lexer := by
  intro hspent
  obtain ⟨⟨above, habove⟩, hhead⟩ := h
  rw [← habove] at hhead
  cases hspent above habove.symm with
  | nil => exact hhead rfl
  | line _ _ => exact hhead rfl

namespace Parse

variable {α β : Type} {place : Option Gap} {mode : Mode} {template template' template'' : Template}
  {same : α → α → Prop}

/-- An induction on the fuel of three readings: there is no less of it for the text with the blank
    line, and there may be too little for the text that is cut off. -/
theorem fuel_induction {P : Nat → Nat → Nat → Prop} (zero : ∀ fuel' fuel'', P 0 fuel' fuel'')
    (short : ∀ fuel fuel' fuel'', P fuel fuel' fuel'' → P fuel fuel' 0)
    (step : ∀ fuel fuel' fuel'', P fuel fuel' fuel'' → P (fuel + 1) (fuel' + 1) (fuel'' + 1)) :
    ∀ fuel fuel' fuel'', fuel ≤ fuel' → P fuel fuel' fuel'' := by
  intro fuel
  induction fuel with
  | zero => exact fun fuel' fuel'' _ => zero fuel' fuel''
  | succ fuel ih =>
      intro fuel' fuel'' hle
      obtain ⟨fuel', rfl⟩ := Nat.exists_eq_add_of_le' (Nat.lt_of_lt_of_le (Nat.succ_pos fuel) hle)
      have hle' := Nat.le_of_succ_le_succ hle
      cases fuel'' with
      | zero => exact short _ _ 1 (step _ _ 0 (ih fuel' 0 hle'))
      | succ fuel'' => exact step _ _ _ (ih fuel' fuel'' hle')

/-- A reader of a token, and one that goes on with what the token says. -/
theorem Crosses.token {reader wider cut : Parse Token} {next next' next'' : Token → Parse α}
    (h : Crosses place mode Token.Like reader wider cut)
    (hnext : ∀ lexeme line line' line'', Crosses place mode same (next ⟨line, lexeme⟩)
      (next' ⟨line', lexeme⟩) (next'' ⟨line'', lexeme⟩)) :
    Crosses place mode same (reader >>= next) (wider >>= next') (cut >>= next'') := by
  refine h.bind fun token token' token'' hsame hsame' => ?_
  obtain ⟨line, lexeme⟩ := token
  obtain ⟨line', lexeme'⟩ := token'
  obtain ⟨line'', lexeme''⟩ := token''
  obtain rfl : lexeme = lexeme' := hsame
  obtain rfl : lexeme = lexeme'' := hsame'
  exact hnext lexeme line line' line''

/-! ## Tokens -/

theorem crosses_drop :
    Crosses place mode Eq (discard (advance template)) (discard (advance template'))
      (discard (advance template'')) :=
  crosses_advance.discard

theorem crosses_isAt (kind : TokenKind) :
    Crosses place mode Eq (isAt template kind) (isAt template' kind) (isAt template'' kind) :=
  crosses_peek.token fun _ _ _ _ => crosses_pure rfl rfl

theorem crosses_expect (kind : TokenKind) :
    Crosses place mode Token.Like (expect template kind) (expect template' kind)
      (expect template'' kind) :=
  crosses_peek.token fun _ _ _ _ => .ite crosses_advance crosses_fail

theorem crosses_skip (count : Nat) :
    Crosses place mode Eq (skip template count) (skip template' count) (skip template'' count) := by
  induction count with
  | zero => exact crosses_pure rfl rfl
  | succ count ih => exact crosses_drop.andThen fun _ => ih

theorem crosses_skipNewlines :
    Crosses place mode Eq (skipNewlines template) (skipNewlines template')
      (skipNewlines template'') := by
  refine Crosses.bounded ?_
  refine fuel_induction (fun _ _ => crosses_throw) (fun _ _ _ h => h.short) fun _ _ _ h => ?_
  exact (crosses_isAt _).andThen fun _ =>
    .ite (crosses_drop.andThen fun _ => h) (crosses_pure rfl rfl)

theorem crosses_newlinesFrom : ∀ fuel fuel' fuel'', fuel ≤ fuel' → ∀ offset,
    Crosses place mode Eq (newlinesFrom template fuel offset) (newlinesFrom template' fuel' offset)
      (newlinesFrom template'' fuel'' offset) := by
  refine fuel_induction (fun _ _ _ => crosses_throw) (fun _ _ _ h offset => (h offset).short)
    fun _ _ _ h offset => ?_
  exact (crosses_peekAt offset).token fun _ _ _ _ =>
    .ite (h (offset + 1)) (crosses_pure rfl rfl)

theorem foldl_defer (tokens : List Token) : ∀ lexer : Lexer,
    tokens.foldl Lexer.defer lexer = { lexer with deferred := lexer.deferred ++ tokens } := by
  induction tokens with
  | nil => exact fun lexer => by rw [List.append_nil]; rfl
  | cons token tokens ih =>
      intro lexer
      rw [List.foldl_cons, ih, Lexer.defer, List.append_assoc]
      rfl

/-- Tokens are put in behind those that wait. -/
theorem crosses_defer {tokens tokens' tokens'' : List Token}
    (h : tokens.map Token.lexeme = tokens'.map Token.lexeme)
    (h' : tokens.map Token.lexeme = tokens''.map Token.lexeme) :
    Crosses place mode Eq (defer tokens) (defer tokens') (defer tokens'') := by
  have hlike : ∀ {lexer other : Lexer} {tokens tokens' : List Token}, lexer.Like other →
      tokens.map Token.lexeme = tokens'.map Token.lexeme →
      (tokens.foldl Lexer.defer lexer).Like (tokens'.foldl Lexer.defer other) := by
    intro lexer other tokens tokens' hlexer htokens
    rw [foldl_defer, foldl_defer]
    exact { hlexer with deferred := map_lexeme_append hlexer.deferred htokens }
  have htail : ∀ (tokens : List Token) (lexer : Lexer) (tail : List Char),
      tokens.foldl Lexer.defer (lexer.withTail tail)
        = (tokens.foldl Lexer.defer lexer).withTail tail := by
    intro tokens lexer tail
    rw [foldl_defer, foldl_defer]
    rfl
  refine ⟨?_, ?_, ?_⟩
  · rintro progress other _ _ hprogress ⟨⟩
    exact ⟨_, _, rfl, rfl, ⟨hprogress.rawBase, hprogress.layout, hprogress.assembly⟩,
      hlike hprogress.lexer h⟩
  · rintro gap - progress wide short _ _ hparts ⟨⟩
    refine .inStep rfl rfl rfl rfl ⟨?_, ?_, ?_, ?_, ?_⟩
    · show (tokens''.foldl Lexer.defer short.lexer).mode = mode
      rw [foldl_defer]
      exact hparts.mode
    · exact htail tokens'' short.lexer gap.rest ▸ hlike hparts.text h'
    · exact htail tokens'' short.lexer gap.wide ▸ hlike hparts.widened (h.symm.trans h')
    · exact ⟨hparts.shares.rawBase, hparts.shares.layout, hparts.shares.assembly⟩
    · exact ⟨hparts.cut.rawBase, hparts.cut.layout, hparts.cut.assembly⟩
  · rintro gap - - progress _ _ hmode hspent ⟨⟩
    show (tokens.foldl Lexer.defer progress.lexer).mode = .raw
      ∧ gap.Spent (tokens.foldl Lexer.defer progress.lexer)
    rw [foldl_defer]
    exact ⟨hmode, hspent⟩

/-! ## Nodes -/

theorem crosses_newNode {line line' line'' : Int} {kind : Kind BlockId}
    {blocks blocks' blocks'' : List (Block BlockId Draft)} {code code' code'' : Option Draft}
    (h : blocks.map Block.lineless = blocks'.map Block.lineless)
    (h' : blocks.map Block.lineless = blocks''.map Block.lineless)
    (hcode : code.map Node.lineless = code'.map Node.lineless)
    (hcode' : code.map Node.lineless = code''.map Node.lineless) :
    Crosses place mode Node.Like (newNode line kind blocks code)
      (newNode line' kind blocks' code') (newNode line'' kind blocks'' code'') :=
  (blind_newNode h hcode).crosses (blind_newNode h' hcode')

/-- A node without parts. -/
theorem crosses_leaf {line line' line'' : Int} {kind : Kind BlockId} :
    Crosses place mode Node.Like (newNode line kind) (newNode line' kind) (newNode line'' kind) :=
  crosses_newNode rfl rfl rfl rfl

/-- A node around a block. -/
theorem crosses_around {line line' line'' : Int} {kind : Kind BlockId}
    {block block' block'' : Block BlockId Draft} (h : block.Like block') (h' : block.Like block'') :
    Crosses place mode Node.Like (newNode line kind [block]) (newNode line' kind [block'])
      (newNode line'' kind [block'']) :=
  crosses_newNode (congrArg (fun block => [block]) h) (congrArg (fun block => [block]) h') rfl rfl

theorem crosses_newBlock {line line' line'' : Int} {nodes nodes' nodes'' : List Draft}
    {props : BlockProps} (h : NodesLike nodes nodes') (h' : NodesLike nodes nodes'') :
    Crosses place mode Block.Like (newBlock line nodes props) (newBlock line' nodes' props)
      (newBlock line'' nodes'' props) :=
  (blind_newBlock h).crosses (blind_newBlock h')

theorem crosses_assemble {action action' action'' : Assemble α}
    (h : Mirrors same action action') (h' : Mirrors same action action'') :
    Crosses place mode same (assemble action) (assemble action') (assemble action'') :=
  (blind_assemble h).crosses (blind_assemble h')

theorem crosses_tell {channel message : String} :
    Crosses place mode Eq (tell channel message) (tell channel message) (tell channel message) :=
  blind_tell.crosses blind_tell

theorem crosses_textLine :
    Crosses place mode Node.Like (textLine template) (textLine template') (textLine template'') :=
  (crosses_expect _).token fun _ _ _ _ => crosses_leaf

theorem crosses_doctypeStatement :
    Crosses place mode Node.Like (doctypeStatement template) (doctypeStatement template')
      (doctypeStatement template'') :=
  (crosses_expect _).token fun _ _ _ _ => crosses_leaf

theorem crosses_yieldStatement :
    Crosses place mode Node.Like (yieldStatement template) (yieldStatement template')
      (yieldStatement template'') :=
  (crosses_expect _).token fun _ _ _ _ => (crosses_newBlock rfl rfl).bind fun _ _ _ h h' =>
    crosses_pure h.ofBlock h'.ofBlock

/-! ## Raw bodies -/

/-- What is read of the state apart from the lexer. -/
theorem crosses_get {next next' next'' : Progress → Parse α}
    (h : ∀ progress wide short : Progress, progress.Shares wide → progress.Shares short →
      Crosses place mode same (next progress) (next' wide) (next'' short)) :
    Crosses place mode same (get >>= next) (get >>= next') (get >>= next'') where
  behind := fun progress other _ _ hlike hrun =>
    (h progress other progress hlike.toShares (.refl progress)).behind hlike hrun
  above := fun gap hgap progress wide short _ _ hparts hrun =>
    (h progress wide short hparts.shares hparts.cut).above gap hgap hparts hrun
  spent := fun gap hgap hraw progress _ _ hmode hspent hrun =>
    (h progress progress progress (.refl progress) (.refl progress)).spent gap hgap hraw hmode
      hspent hrun

/-- A change of the state that leaves the lexer alone. -/
theorem crosses_modify {f : Progress → Progress}
    (hlexer : ∀ progress, (f progress).lexer = progress.lexer)
    (h : ∀ progress other : Progress, progress.Shares other → (f progress).Shares (f other)) :
    Crosses place mode Eq (modify f : Parse PUnit) (modify f) (modify f) := by
  have hblind : Blind Eq (modify f : Parse PUnit) (modify f) := by
    rintro progress other _ _ hshares ⟨⟩
    exact ⟨hlexer progress, _, _, rfl, rfl, hlexer other, h _ _ hshares⟩
  exact hblind.crosses hblind

theorem crosses_rawLinesWith {deeper deeper' deeper'' : Parse (Block BlockId Draft)}
    (h : Crosses place mode Block.Like deeper deeper' deeper'') (indent : Nat) :
    ∀ fuel fuel' fuel'', fuel ≤ fuel' →
      Crosses place mode NodesLike (rawLinesWith template deeper indent fuel)
        (rawLinesWith template' deeper' indent fuel')
        (rawLinesWith template'' deeper'' indent fuel'') := by
  refine fuel_induction (fun _ _ => crosses_throw) (fun _ _ _ h => h.short) fun _ _ _ ih => ?_
  refine crosses_peek.token fun lexeme line line' line'' => ?_
  dsimp only [Token.kind]
  cases lexeme.kind with
  | outdent => exact crosses_pure rfl rfl
  | newline => exact crosses_drop.andThen fun _ => ih
  | indent =>
      exact h.bind fun _ _ _ hblock hblock' => ih.bind fun _ _ _ hnodes hnodes' =>
        crosses_pure (.append hblock.nodes hnodes) (.append hblock'.nodes hnodes')
  | _ =>
      exact crosses_advance.token fun _ _ _ _ => crosses_leaf.bind fun _ _ _ hnode hnode' =>
        ih.bind fun _ _ _ hnodes hnodes' =>
          crosses_pure (.cons hnode hnodes) (.cons hnode' hnodes')

theorem crosses_rawBlockWith : ∀ fuel fuel' fuel'', fuel ≤ fuel' →
    Crosses place mode Block.Like (rawBlockWith template fuel) (rawBlockWith template' fuel')
      (rawBlockWith template'' fuel'') := by
  refine fuel_induction (fun _ _ => crosses_throw) (fun _ _ _ h => h.short) fun _ _ _ ih => ?_
  refine (crosses_expect _).token fun lexeme line line' line'' => ?_
  refine crosses_get fun progress wide short hwide hshort => ?_
  rw [← hwide.rawBase, ← hshort.rawBase]
  refine Crosses.andThen (crosses_modify (fun _ => rfl) fun _ _ hshares => ?_) fun _ => ?_
  · exact ⟨rfl, hshares.layout, hshares.assembly⟩
  · refine Crosses.bounded fun fuel fuel' fuel'' hle =>
      (crosses_rawLinesWith ih _ fuel fuel' fuel'' hle).bind fun _ _ _ hnodes hnodes' => ?_
    refine Crosses.andThen (crosses_modify ?_ ?_) fun _ =>
      (crosses_expect _).discard.andThen fun _ => crosses_newBlock hnodes hnodes'
    · intro progress
      split <;> rfl
    · intro progress other hshares
      rw [← hshares.rawBase]
      split
      · exact ⟨rfl, hshares.layout, hshares.assembly⟩
      · exact hshares

/-- The lines of a raw body, between the switches of the mode. -/
theorem crosses_rawLines :
    Crosses place mode Block.Like (tokenBound >>= rawBlockWith template)
      (tokenBound >>= rawBlockWith template') (tokenBound >>= rawBlockWith template'') :=
  .bounded crosses_rawBlockWith

/-- A raw body is read in raw mode, and the mode is switched back behind it. -/
theorem rawBlock_eq (template : Template) (progress : Progress) :
    rawBlock template progress
      = match (tokenBound >>= rawBlockWith template) (progress.inMode .raw) with
        | .ok block after => .ok block (after.inMode .markup)
        | .error fault after => .error fault after := by
  have hbound : ∀ start : Progress, (tokenBound >>= rawBlockWith template) start
      = rawBlockWith template (start.lexer.potential + 1) start := fun _ => rfl
  show EStateM.bind (rawBlockWith template ((progress.inMode .raw).lexer.potential + 1)) _
    (progress.inMode .raw) = _
  rw [EStateM.bind, hbound]
  cases rawBlockWith template _ (progress.inMode .raw) <;> rfl

theorem rawBlock_of_ok {progress after : Progress} {block : Block BlockId Draft}
    (h : (tokenBound >>= rawBlockWith template) (progress.inMode .raw) = .ok block after) :
    rawBlock template progress = .ok block (after.inMode .markup) := by
  rw [rawBlock_eq, h]

theorem rawBlock_eq_ok {progress after : Progress} {block : Block BlockId Draft}
    (h : rawBlock template progress = .ok block after) :
    ∃ last, (tokenBound >>= rawBlockWith template) (progress.inMode .raw) = .ok block last
      ∧ after = last.inMode .markup := by
  rw [rawBlock_eq] at h
  cases hrun : (tokenBound >>= rawBlockWith template) (progress.inMode .raw) with
  | ok found last =>
      rw [hrun] at h
      cases h
      exact ⟨last, rfl, rfl⟩
  | error fault last =>
      rw [hrun] at h
      cases h

theorem Breaks.rawBlock {progress : Progress}
    (h : Breaks ((tokenBound >>= rawBlockWith template) (progress.inMode .raw))) :
    Breaks (rawBlock template progress) := by
  obtain ⟨fault, after, hrun, hcause⟩ := h
  exact ⟨fault, after, by rw [rawBlock_eq, hrun], hcause⟩

theorem inMode_like {progress other : Progress} (h : progress.Like other) (mode : Mode) :
    (progress.inMode mode).Like (other.inMode mode) :=
  ⟨⟨h.rawBase, h.layout, h.assembly⟩, { h.lexer with mode := rfl }⟩

theorem inMode_parts {gap : Gap} {progress wide short : Progress}
    (h : gap.Parts mode progress wide short) (mode' : Mode) :
    gap.Parts mode' (progress.inMode mode') (wide.inMode mode') (short.inMode mode') where
  mode := rfl
  text := { h.text with mode := rfl }
  widened := { h.widened with mode := rfl }
  shares := ⟨h.shares.rawBase, h.shares.layout, h.shares.assembly⟩
  cut := ⟨h.cut.rawBase, h.cut.layout, h.cut.assembly⟩

theorem rawBlock_behind {progress other after : Progress} {block : Block BlockId Draft}
    (h : progress.Like other) (hrun : rawBlock template progress = .ok block after) :
    ∃ block' after', rawBlock template' other = .ok block' after' ∧ block.Like block'
      ∧ after.Like after' := by
  obtain ⟨last, hlast, rfl⟩ := rawBlock_eq_ok hrun
  have hlines : Crosses none .raw Block.Like (tokenBound >>= rawBlockWith template)
      (tokenBound >>= rawBlockWith template') (tokenBound >>= rawBlockWith template') :=
    crosses_rawLines
  obtain ⟨block', last', hlast', hblock, hlike⟩ := hlines.behind (inMode_like h .raw) hlast
  exact ⟨block', _, rawBlock_of_ok hlast', hblock, inMode_like hlike .markup⟩

/-- A raw body behind the gap. -/
theorem crosses_rawBlock :
    Crosses none mode Block.Like (rawBlock template) (rawBlock template')
      (rawBlock template'') where
  behind := fun _ _ _ _ h hrun => rawBlock_behind h hrun
  above := nofun
  spent := nofun

/-- Reads a raw body, and refuses one that starts above the gap and does not end there. -/
def endsAbove (gap : Gap) (template : Template) : Parse (Block BlockId Draft) := fun progress =>
  match rawBlock template progress with
  | .ok block after =>
      if gap.rest <:+ progress.lexer.input ∧ ¬ gap.Above after.lexer then
        .error ⟨.exhausted, {}⟩ after
      else .ok block after
  | .error fault after => .error fault after

theorem endsAbove_eq_ok {gap : Gap} {progress after : Progress} {block : Block BlockId Draft}
    (h : endsAbove gap template progress = .ok block after) :
    rawBlock template progress = .ok block after
      ∧ (gap.rest <:+ progress.lexer.input → gap.Above after.lexer) := by
  unfold endsAbove at h
  split at h
  · next found last hrun =>
      split at h
      · cases h
      · next hends =>
          cases h
          exact ⟨hrun, fun hstarts => not_not.mp fun hnot => hends ⟨hstarts, hnot⟩⟩
  · cases h

/-- **A raw body above the gap** is read alike if it ends there. -/
theorem crosses_endsAbove (gap : Gap) :
    Crosses (some gap) .markup Block.Like (endsAbove gap template) (rawBlock template')
      (rawBlock template'') where
  behind := fun _ _ _ _ h hrun => rawBlock_behind h (endsAbove_eq_ok hrun).1
  above := by
    rintro _ ⟨⟩ progress wide short block after hparts hrun
    obtain ⟨hblock, hends⟩ := endsAbove_eq_ok hrun
    obtain ⟨last, hlast, rfl⟩ := rawBlock_eq_ok hblock
    have hlines : Crosses (some gap) .raw Block.Like (tokenBound >>= rawBlockWith template)
        (tokenBound >>= rawBlockWith template') (tokenBound >>= rawBlockWith template'') :=
      crosses_rawLines
    cases hlines.above gap rfl (inMode_parts hparts .raw) hlast with
    | breaks stops => exact .breaks stops.rawBlock
    | inStep widened cutOff results results' parts =>
        exact .inStep (rawBlock_of_ok widened) (rawBlock_of_ok cutOff) results results'
          (inMode_parts parts .markup)
    | past between => cases between
    | spent _ _ left =>
        -- the body has come to the gap, and ends above it
        have habove := hends ⟨short.lexer.input, hparts.text.input.symm⟩
        exact absurd left habove.not_spent
  spent := fun _ _ hraw => by cases hraw

end Parse

end Stencil
