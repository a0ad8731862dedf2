import Stencil.Proofs.Grammar.Ends

/-! # Productions — every reader of the grammar ends

    One theorem for each reader, in the order in which they are built.  A reader
    of statements takes a token at least and stays inside the same blocks
    (`Statement`), so a loop over statements runs out of tokens before it runs
    out of fuel; and a raw body lies inside a block, where the stream does not
    end, so its loop meets the outdent that closes it.

    A shorthand puts two tokens in.  They are taken before a statement inside is
    read: that is why a statement may start with both of them waiting
    (`Shorthand`), but nothing else has to be read with a token deferred. -/

namespace Stencil.Parse

open Lexer

variable {template : Template} {reading : Reading} {statement : Parse Draft}
  {depth bound limit : Nat} {deferred shown : List Token}

/-! ## Readers of statements -/

/-- A reader that takes a token at least, and stays inside the same blocks, when fewer tokens than
    the limit may come. -/
def Statement (template : Template) (reading : Reading) (limit : Nat) (reader : Parse Draft) :
    Prop :=
  ∀ depth bound, bound ≤ limit → Ends template reading (Stands depth bound [] []) reader
    fun _ => Stands depth (bound - 1) [] []

/-- A reader that takes the two tokens of a shorthand, and what may follow them. -/
def Shorthand (template : Template) (reading : Reading) (limit : Nat) (reader : Parse Draft) :
    Prop :=
  ∀ depth bound tag part, bound ≤ limit → tag.kind = .tag →
    part.kind = .idName ∨ part.kind = .className →
      Ends template reading (Stands depth bound [tag, part] []) reader
        fun _ => Stands depth bound [] []

/-- A calm reader at the end may forget what was seen, and be more generous. -/
theorem Calm.ends_mono {α : Type} {reader : Parse α} {bound' : Nat} (h : Calm reader)
    (hle : bound ≤ bound') :
    Ends template reading (Stands depth bound deferred shown) reader
      fun _ => Stands depth bound' deferred [] :=
  h.ends.imp (fun _ => id) fun _ _ hstands => hstands.forget.mono hle

/-- A state whose bound is zero does not exist. -/
theorem not_stands_zero (lexer : Lexer) : ¬ Stands depth 0 deferred shown lexer := by
  intro h
  have hlength := h.length_le
  have hpotential := h.potential
  omega

theorem statementsWith_ends (h : Statement template reading limit statement) {stop : TokenKind}
    (fuel : Nat) : fuel ≤ limit →
      Ends template reading (Stands depth fuel [] []) (statementsWith template statement stop fuel)
        fun _ => Stands depth fuel [] [] := by
  induction fuel with
  | zero => exact fun _ => ends_exhausted fun _ => not_stands_zero
  | succ fuel ih =>
      intro hle
      have hrest := (ih (Nat.le_of_succ_le hle)).imp (fun _ => id)
        fun _ _ hstands => hstands.mono (Nat.le_succ fuel)
      refine ends_peek fun token => .ite (fun hstop => ?_) fun hstop => .ite (fun hbreak => ?_)
        fun hbreak => ?_
      · exact ends_pure fun _ => Stands.forget
      · have hkind : token.kind = .newline := beq_iff_eq.mp hbreak
        exact ends_drop (congrArg TokenKind.keepsLevel hkind) hrest
      · refine (h depth (fuel + 1) hle).forget.bind fun node => ?_
        exact hrest.bind fun nodes => ends_pure fun _ => id

theorem statements_ends (h : Statement template reading limit statement) {stop : TokenKind}
    (hle : bound ≤ limit) :
    Ends template reading (Stands depth bound [] shown) (statements template statement stop)
      fun _ => Stands depth bound [] [] :=
  ends_tokenBound fun left hleft =>
    (statementsWith_ends h left (Nat.le_trans hleft hle)).imp (fun _ => id)
      fun _ _ hstands => hstands.mono hleft

/-- **An indented body** goes one block in, and comes out again. -/
theorem indentedBlock_ends (h : Statement template reading limit statement)
    (hle : bound ≤ limit + 1) :
    Ends template reading (Stands depth bound [] shown) (indentedBlock template statement)
      fun _ => Stands depth (bound - 1) [] [] := by
  refine ends_expect .indent nofun fun token => ?_
  refine (statements_ends h (by omega)).bind fun nodes => ?_
  exact ends_dropExpected .outdent nofun (calm_newBlock.ends_mono (by omega))

/-! ## Raw bodies -/

theorem rawLinesWith_ends {deeper : Parse (Block BlockId Draft)}
    (hdeeper : ∀ bound ≤ limit, Ends template reading (Stands (depth + 1) bound [] []) deeper
      fun _ => Stands (depth + 1) (bound - 1) [] []) {indent : Nat} (fuel : Nat) :
    fuel ≤ limit → Ends template reading (Stands (depth + 1) fuel [] [])
      (rawLinesWith template deeper indent fuel) fun _ => Stands (depth + 1) fuel [] [] := by
  induction fuel with
  | zero => exact fun _ => ends_exhausted fun _ => not_stands_zero
  | succ fuel ih =>
      intro hle
      have hrest := (ih (Nat.le_of_succ_le hle)).imp (fun _ => id)
        fun _ _ hstands => hstands.mono (Nat.le_succ fuel)
      refine ends_peek fun token => ?_
      split
      · exact ends_pure fun _ => Stands.forget
      · next hkind =>
          exact ends_drop (congrArg TokenKind.keepsLevel hkind) hrest
      · refine (hdeeper (fuel + 1) hle).forget.bind fun block => ?_
        exact hrest.bind fun nodes => ends_pure fun _ => id
      · next houtdent _ hindent =>
          -- inside a block the stream does not end, so the line can be taken
          refine .of_pre fun lexer hlexer => ?_
          have hne : token.kind ≠ .eos := fun heos => nomatch hlexer.eos heos
          refine ends_advance (.keep hindent houtdent) hne (calm_newNode.andThen fun node => ?_)
          exact hrest.bind fun nodes => ends_pure fun _ => id

theorem rawBlockWith_ends (fuel : Nat) : ∀ {depth bound : Nat} {shown : List Token},
    (reading.enough → bound ≤ fuel) →
      Ends template reading (Stands depth bound [] shown) (rawBlockWith template fuel)
        fun _ => Stands depth (bound - 1) [] [] := by
  induction fuel with
  | zero =>
      intro depth bound shown hle
      refine ends_exhausted fun henough => ?_
      obtain rfl := Nat.le_zero.mp (hle henough)
      exact not_stands_zero
  | succ fuel ih =>
      intro depth bound shown hle
      refine ends_expect .indent nofun fun token => calm_get.andThen fun progress => ?_
      dsimp only
      refine ends_modify (fun _ => rfl) (ends_tokenBound fun left hleft => ?_)
      have hdeeper : ∀ inner ≤ left, Ends template reading (Stands (depth + 1) inner [] [])
          (rawBlockWith template fuel) fun _ => Stands (depth + 1) (inner - 1) [] [] := by
        intro inner hinner
        exact ih fun henough => by have := hle henough; omega
      refine (rawLinesWith_ends hdeeper left (Nat.le_refl _)).bind fun nodes => ?_
      refine ends_modify (fun progress => by split <;> rfl) ?_
      exact ends_dropExpected .outdent nofun (calm_newBlock.ends_mono (by omega))

/-- The mode in which lines are read moves nothing. -/
theorem ends_setMode {β : Type} {mode : Mode} {next : PUnit → Parse β} {post : β → Lexer → Prop}
    (h : Ends template reading (Stands depth bound deferred shown) (next ⟨⟩) post) :
    Ends template reading (Stands depth bound deferred shown) (setMode mode >>= next) post :=
  fun progress hreached hlexer => h { progress with lexer := { progress.lexer with mode } }
    (hreached.switch mode)
    ⟨hlexer.queue, hlexer.keep, hlexer.seen, hlexer.balance.congr rfl rfl rfl, hlexer.potential⟩

/-- **A raw body** goes one block in, and comes out again. -/
theorem rawBlock_ends :
    Ends template reading (Stands depth bound [] shown) (rawBlock template)
      fun _ => Stands depth (bound - 1) [] [] := by
  refine ends_setMode (ends_tokenBound fun left hleft => ?_)
  refine (rawBlockWith_ends left fun _ => Nat.le_refl _).bind fun block => ?_
  exact ends_setMode (ends_pure fun _ hstands => hstands.mono (by omega))

/-! ## Control statements -/

theorem textLine_ends :
    Ends template reading (Stands depth bound [] shown) (textLine template)
      fun _ => Stands depth (bound - 1) [] [] :=
  ends_expect (.keep nofun nofun) nofun fun _ => calm_newNode.ends_mono (Nat.le_refl _)

theorem armBody_ends (h : Statement template reading limit statement) (hle : bound ≤ limit + 1) :
    Ends template reading (Stands depth bound [] shown) (armBody template statement)
      fun _ => Stands depth (bound - 1) [] [] := by
  refine ends_peek fun token => .ite (fun hcolon => ?_) fun hcolon => ?_
  · have hkind : token.kind = .colon := beq_iff_eq.mp hcolon
    refine ends_drop (congrArg TokenKind.keepsLevel hkind) ?_
    exact (h depth _ (by omega)).bind fun node => calm_newBlock.ends_mono (by omega)
  · exact indentedBlock_ends h hle

theorem caseStatement_ends (h : Statement template reading limit statement) :
    Statement template reading (limit + 1) (caseStatement template statement) := by
  intro depth bound hle
  refine ends_expect (.keep nofun nofun) nofun fun token => ?_
  exact (indentedBlock_ends h (by omega)).bind fun body => calm_newNode.ends_mono (by omega)

theorem whenStatement_ends (h : Statement template reading limit statement) :
    Statement template reading (limit + 1) (whenStatement template statement) := by
  intro depth bound hle
  refine ends_expect (.keep nofun nofun) nofun fun token => ?_
  exact (armBody_ends h (by omega)).bind fun body => calm_newNode.ends_mono (by omega)

theorem defaultStatement_ends (h : Statement template reading limit statement) :
    Statement template reading (limit + 1) (defaultStatement template statement) := by
  intro depth bound hle
  refine ends_expect (.keep nofun nofun) nofun fun token => ?_
  exact (armBody_ends h (by omega)).bind fun body => calm_newNode.ends_mono (by omega)

/-- Line breaks that a reader has looked at. -/
def LineBreaks (shown : List Token) : Prop := ∀ t ∈ shown, t.kind = .newline

/-- No more tokens can have been looked at than may come. -/
theorem LineBreaks.length_lt {lexer : Lexer} (h : LineBreaks shown)
    (hstands : Stands depth bound [] shown lexer) : shown.length < bound := by
  obtain ⟨rest, hrest⟩ := hstands.seen
  have hopen : countOpen shown = shown.length := by
    rw [countOpen, List.filter_eq_self.mpr]
    intro t ht
    simp [h t ht]
  have hbound := hstands.potential
  rw [List.nil_append] at hrest
  simp only [potential, hstands.queue, ← hrest, countOpen_append, hopen, List.length_nil] at hbound
  omega

/-- Line breaks are looked at one after another, and all of them stay where they are. -/
theorem newlinesFrom_ends (fuel : Nat) : ∀ {shown : List Token}, LineBreaks shown →
    bound ≤ fuel + shown.length →
      Ends template reading (Stands depth bound [] shown)
        (newlinesFrom template fuel shown.length) fun breaks lexer =>
          ∃ shown', LineBreaks shown' ∧ shown'.length = breaks
            ∧ Stands depth bound [] shown' lexer := by
  induction fuel with
  | zero =>
      intro shown hbreaks hle
      -- more line breaks than the bound of the state allows were not looked at
      refine ends_exhausted fun _ lexer hlexer => ?_
      have hlt := hbreaks.length_lt hlexer
      omega
  | succ fuel ih =>
      intro shown hbreaks hle
      refine ends_peekAt rfl fun token => .ite (fun hbreak => ?_) fun hbreak => ?_
      · have hbreaks' : LineBreaks (shown ++ [token]) := by
          intro t ht
          rcases List.mem_append.mp ht with ht | ht
          · exact hbreaks t ht
          · obtain rfl := List.mem_singleton.mp ht
            exact beq_iff_eq.mp hbreak
        have hlength : (shown ++ [token]).length = shown.length + 1 := List.length_append
        have hrest := ih hbreaks' (by omega)
        rwa [hlength] at hrest
      · refine ends_pure fun lexer hlexer => ⟨shown, hbreaks, rfl, ?_⟩
        exact { hlexer with seen := (List.prefix_append _ _).trans hlexer.seen }

/-- Line breaks that were looked at are taken; more tokens may have been. -/
theorem skip_ends {more : List Token} : ∀ {shown : List Token} {bound : Nat}, LineBreaks shown →
    Ends template reading (Stands depth bound [] (shown ++ more)) (skip template shown.length)
      fun _ => Stands depth bound [] [] := by
  intro shown
  induction shown with
  | nil => exact fun _ => ends_pure fun _ => Stands.forget
  | cons token shown ih =>
      intro bound hbreaks
      have hkind := hbreaks token List.mem_cons_self
      refine ends_drop (congrArg TokenKind.keepsLevel hkind) ?_
      exact (ih fun t ht => hbreaks t (List.mem_cons_of_mem _ ht)).imp (fun _ => id)
        fun _ _ hstands => hstands.mono (Nat.sub_le _ _)

theorem codeStatement_ends (h : Statement template reading limit statement) :
    Statement template reading (limit + 1) (codeStatement template statement) := by
  intro depth bound hle
  refine ends_expect (.keep nofun nofun) nofun fun token => ends_tokenBound fun left hleft => ?_
  have hnone : LineBreaks [] := fun _ ht => nomatch ht
  refine (newlinesFrom_ends left hnone (Nat.le_refl _)).bind
    fun breaks progress hreached hlexer => ?_
  obtain ⟨shown, hbreaks, rfl, hstands⟩ := hlexer
  refine (?_ : Ends template reading (Stands depth left [] shown) _ _) progress hreached hstands
  refine ends_peekAt rfl fun first => .ite (fun _ => ?_) fun _ => calm_newNode.ends_mono hleft
  refine (skip_ends hbreaks).bind fun _ => ?_
  exact (indentedBlock_ends h (by omega)).bind fun body => calm_newNode.ends_mono (by omega)

theorem eachStatement_ends (h : Statement template reading limit statement) :
    Statement template reading (limit + 1) (eachStatement template statement) := by
  intro depth bound hle
  refine ends_expect (.keep nofun nofun) nofun fun token => ?_
  refine (indentedBlock_ends h (by omega)).bind fun body => ?_
  refine ends_peek fun after => .ite (fun helse => ?_) fun helse => ?_
  · have hkind : after.kind = .code := by
      simp only [Bool.and_eq_true, beq_iff_eq] at helse
      exact helse.1
    refine ends_drop (congrArg TokenKind.keepsLevel hkind) ?_
    exact (indentedBlock_ends h (by omega)).bind fun alternative =>
      calm_newNode.ends_mono (by omega)
  · exact calm_newNode.ends_mono (by omega)

theorem commentStatement_ends (h : Statement template reading limit statement) :
    Statement template reading (limit + 1) (commentStatement template statement) := by
  intro depth bound hle
  refine ends_expect (.keep nofun nofun) nofun fun token => ends_isAt fun after => ?_
  refine .ite (fun _ => ?_) fun _ => calm_newNode.ends_mono (by omega)
  exact (indentedBlock_ends h (by omega)).bind fun body => calm_newNode.ends_mono (by omega)

theorem doctypeStatement_ends : Statement template reading limit (doctypeStatement template) :=
  fun _ _ _ => ends_expect (.keep nofun nofun) nofun fun _ => calm_newNode.ends_mono (Nat.le_refl _)

theorem filterStatement_ends : Statement template reading limit (filterStatement template) := by
  intro depth bound hle
  refine ends_expect (.keep nofun nofun) nofun fun token => ends_peek fun after => ?_
  have hbody : ∀ {attributes : OrderedMap String AttributeValue} {bound' : Nat},
      bound' ≤ bound - 1 →
        Ends template reading (Stands depth bound' [] [])
          (do let body ← rawBlock template
              newNode token.line (.filter token.value attributes) [body])
          fun _ => Stands depth (bound - 1) [] [] := by
    intro attributes bound' hle'
    exact rawBlock_ends.bind fun body => calm_newNode.ends_mono (by omega)
  refine Ends.ite (fun hattributes => ?_) fun hattributes => ?_
  · have hkind : after.kind = .attrs := beq_iff_eq.mp hattributes
    refine ends_drop (congrArg TokenKind.keepsLevel hkind) ?_
    rw [pure_bind]
    exact hbody (by omega)
  · rw [pure_bind]
    exact (hbody (Nat.le_refl _)).forget

theorem yieldStatement_ends : Statement template reading limit (yieldStatement template) := by
  intro depth bound hle
  refine ends_expect (.keep nofun nofun) nofun fun token => calm_newBlock.andThen fun mark => ?_
  exact ends_pure fun _ => id

/-! ## Elements -/

/-- The part of a shorthand that is still waiting, if there is one. -/
def Waiting (deferred : List Token) : Prop :=
  deferred = [] ∨ ∃ part, deferred = [part] ∧ (part.kind = .idName ∨ part.kind = .className)

theorem readAttributesWith_ends (fuel : Nat) : ∀ {classes : List String} {element : Element},
    Ends template reading (Stands depth fuel [] [])
      (readAttributesWith template fuel classes element) fun _ => Stands depth fuel [] [] := by
  induction fuel with
  | zero => exact ends_exhausted fun _ => not_stands_zero
  | succ fuel ih =>
      intro classes element
      have hrest : ∀ {classes element}, Ends template reading (Stands depth fuel [] [])
          (readAttributesWith template fuel classes element)
          fun _ => Stands depth (fuel + 1) [] [] :=
        ih.imp (fun _ => id) fun _ _ hstands => hstands.mono (Nat.le_succ fuel)
      refine ends_peek fun token => ?_
      split
      · next hkind => exact ends_drop (congrArg TokenKind.keepsLevel hkind) hrest
      · next hkind => exact ends_drop (congrArg TokenKind.keepsLevel hkind) hrest
      · next hkind => exact ends_drop (congrArg TokenKind.keepsLevel hkind) hrest
      · exact ends_pure fun _ => Stands.forget

/-- A part of a shorthand that waits is taken with the attributes. -/
theorem readAttributes_ends (hwaiting : Waiting deferred) {element : Element} :
    Ends template reading (Stands depth bound deferred shown) (readAttributes template element)
      fun _ => Stands depth bound [] [] := by
  refine ends_tokenBound fun left hleft => ?_
  rcases hwaiting with rfl | ⟨part, rfl, hpart⟩
  · exact (readAttributesWith_ends left).imp (fun _ => id) fun _ _ hstands => hstands.mono hleft
  · have hrest : ∀ {classes element}, Ends template reading (Stands depth left [] [])
        (readAttributesWith template left classes element) fun _ => Stands depth bound [] [] :=
      (readAttributesWith_ends left).imp (fun _ => id) fun _ _ hstands => hstands.mono hleft
    refine ends_peek_deferred ?_
    rcases hpart with hpart | hpart
    · rw [hpart]
      exact ends_drop_deferred hrest
    · rw [hpart]
      exact ends_drop_deferred hrest

theorem takeDot_ends :
    Ends template reading (Stands depth bound [] shown) (takeDot template)
      fun _ => Stands depth bound [] [] := by
  refine ends_peek fun token => .ite (fun hdot => ?_) fun _ => ends_pure fun _ => Stands.forget
  have hkind : token.kind = .text := by
    simp only [Bool.and_eq_true, beq_iff_eq] at hdot
    exact hdot.1
  refine ends_drop (congrArg TokenKind.keepsLevel hkind) (ends_pure fun _ hstands => ?_)
  exact hstands.mono (Nat.sub_le _ _)

theorem skipNewlinesWith_ends (fuel : Nat) :
    Ends template reading (Stands depth fuel [] []) (skipNewlinesWith template fuel)
      fun _ => Stands depth fuel [] [] := by
  induction fuel with
  | zero => exact ends_exhausted fun _ => not_stands_zero
  | succ fuel ih =>
      refine ends_isAt fun token => .ite (fun hbreak => ?_) fun _ =>
        ends_pure fun _ => Stands.forget
      refine ends_drop (congrArg TokenKind.keepsLevel (beq_iff_eq.mp hbreak)) ?_
      exact ih.imp (fun _ => id) fun _ _ hstands => hstands.mono (Nat.le_succ fuel)

theorem skipNewlines_ends :
    Ends template reading (Stands depth bound [] shown) (skipNewlines template)
      fun _ => Stands depth bound [] [] :=
  ends_tokenBound fun left hleft =>
    (skipNewlinesWith_ends left).imp (fun _ => id) fun _ _ hstands => hstands.mono hleft

theorem readLineContent_ends (h : Statement template reading limit statement)
    (hle : bound ≤ limit) {opened : OpenElement} :
    Ends template reading (Stands depth bound [] shown)
      (readLineContent template statement opened) fun _ => Stands depth bound [] [] := by
  refine ends_peek fun token => ?_
  split
  · exact textLine_ends.bind fun text => ends_pure fun _ hstands => hstands.mono (Nat.sub_le _ _)
  · refine (codeStatement_ends h depth bound (by omega)).forget.bind fun code => ?_
    exact ends_pure fun _ hstands => hstands.mono (Nat.sub_le _ _)
  · next hkind =>
      refine ends_drop (congrArg TokenKind.keepsLevel hkind) ?_
      refine (h depth _ (by omega)).bind fun node => calm_newBlock.andThen fun body => ?_
      exact ends_pure fun _ hstands => hstands.mono (by omega)
  · exact ends_pure fun _ => Stands.forget

theorem readBody_ends (h : Statement template reading limit statement) (hle : bound ≤ limit)
    {opened : OpenElement} :
    Ends template reading (Stands depth bound [] shown) (readBody template statement opened)
      fun _ => Stands depth bound [] [] := by
  refine ends_isAt fun token => .ite (fun _ => .ite (fun _ => ?_) fun _ => ?_) fun _ =>
    ends_pure fun _ => Stands.forget
  · exact rawBlock_ends.bind fun body => ends_pure fun _ hstands => hstands.mono (Nat.sub_le _ _)
  · refine (indentedBlock_ends h (by omega)).bind fun body => ends_pure fun _ hstands => ?_
    exact hstands.mono (Nat.sub_le _ _)

/-- **What follows the name of an element**: a part of a shorthand that waits is taken first. -/
theorem readElement_ends (h : Statement template reading limit statement)
    (hwaiting : Waiting deferred) (hle : bound ≤ limit) {element : Element} :
    Ends template reading (Stands depth bound deferred []) (readElement template statement element)
      fun _ => Stands depth bound [] [] := by
  refine calm_newBlock.andThen fun body => (readAttributes_ends hwaiting).bind fun element => ?_
  refine takeDot_ends.bind fun dot => ?_
  refine (readLineContent_ends h hle).bind fun opened => ?_
  exact skipNewlines_ends.bind fun _ => readBody_ends h hle

theorem tagStatement_ends (h : Statement template reading limit statement) :
    Statement template reading (limit + 1) (tagStatement template statement) := by
  intro depth bound hle
  refine ends_expect (.keep nofun nofun) nofun fun token => ?_
  refine (readElement_ends h (.inl rfl) (by omega)).bind fun opened => ?_
  exact calm_newNode.ends_mono (Nat.le_refl _)

theorem tagStatement_shorthand (h : Statement template reading limit statement) :
    Shorthand template reading limit (tagStatement template statement) := by
  intro depth bound tag part hle htag hpart
  refine ends_expect_deferred fun _ => ?_
  refine (readElement_ends h (.inr ⟨part, rfl, hpart⟩) hle).bind fun opened => ?_
  exact calm_newNode.ends_mono (Nat.le_refl _)

theorem interpolatedStatement_ends (h : Statement template reading limit statement) :
    Statement template reading (limit + 1) (interpolatedStatement template statement) := by
  intro depth bound hle
  refine ends_expect (.keep nofun nofun) nofun fun token => ?_
  refine (readElement_ends h (.inl rfl) (by omega)).bind fun opened => ?_
  exact calm_newNode.ends_mono (Nat.le_refl _)

theorem callStatement_ends (h : Statement template reading limit statement) :
    Statement template reading (limit + 1) (callStatement template statement) := by
  intro depth bound hle
  refine ends_expect (.keep nofun nofun) nofun fun token => ?_
  refine (readElement_ends h (.inl rfl) (by omega)).bind fun opened => ?_
  exact calm_newNode.ends_mono (Nat.le_refl _)

/-! ## Composition -/

theorem namedContent_ends (h : Statement template reading limit statement)
    (hle : bound ≤ limit) {line : Int} :
    Ends template reading (Stands depth bound [] shown) (namedContent template statement line)
      fun _ => Stands depth bound [] [] := by
  refine ends_isAt fun token => .ite (fun _ => ?_) fun _ => ?_
  · exact (indentedBlock_ends h (by omega)).imp (fun _ => id)
      fun _ _ hstands => hstands.mono (Nat.sub_le _ _)
  · exact calm_newNode.andThen fun node => calm_newBlock.ends_mono (Nat.le_refl _)

theorem blockStatement_ends (h : Statement template reading limit statement) :
    Statement template reading (limit + 1) (blockStatement template statement) := by
  intro depth bound hle
  refine ends_expect (.keep nofun nofun) nofun fun token => ?_
  refine (namedContent_ends h (by omega)).bind fun content => ?_
  exact calm_defineBlock.andThen fun block => ends_pure fun _ => id

theorem mixinStatement_ends (h : Statement template reading limit statement) :
    Statement template reading (limit + 1) (mixinStatement template statement) := by
  intro depth bound hle
  refine ends_expect (.keep nofun nofun) nofun fun token => ends_isAt fun after => ?_
  refine .ite (fun _ => ?_) fun _ => calm_newNode.ends_mono (Nat.le_refl _)
  refine (indentedBlock_ends h (by omega)).bind fun body => ?_
  refine calm_newNode.andThen fun definition => ?_
  refine calm_modifyAssembly.andThen fun _ => ?_
  exact ends_pure fun _ hstands => hstands.mono (Nat.sub_le _ _)

section Naming

variable {pre : Lexer → Prop} (hnamed : template.filename ≠ none)
include hnamed

theorem checkCycle_ends {path : String} {line : Int} :
    Ends template reading pre (checkCycle template path line) fun _ => pre :=
  .ite (fun _ => ends_fail (.naming hnamed (.cycle path))) fun _ => ends_pure fun _ => id

theorem load_ends {path : String} {line : Int} :
    Ends template reading pre (load template path line) fun _ => pre := by
  unfold load
  split
  · exact ends_pure fun _ => id
  · exact ends_fail (.naming hnamed (.load _ path))

/-- Composing an included template leaves the lexer alone, and fails as composing does. -/
theorem composeInclude_ends {source : Source} :
    Ends template reading pre (assemble (composeInclude template source)) fun _ => pre := by
  intro progress hreached hpre
  unfold assemble
  cases hrun : composeInclude template source progress.assembly with
  | ok composed after => exact ⟨hreached, hpre⟩
  | error fault after =>
      -- all that can fail is the composition itself, on a copy of the named blocks
      let copied : Assembly :=
        { progress.assembly with
          store := (progress.assembly.registry.snapshot progress.assembly.store).1,
          registry := (progress.assembly.registry.snapshot progress.assembly.store).2 }
      replace hrun : EStateM.bind (template.compose source) _ copied = .error fault after := hrun
      unfold EStateM.bind at hrun
      cases hcompose : template.compose source copied with
      | ok composed final =>
          rw [hcompose] at hrun
          cases hrun
      | error other final =>
          rw [hcompose] at hrun
          cases hrun
          exact .composing hnamed hcompose

theorem includeLiteral_ends {filename path : String} {line : Int} :
    Ends template reading (Stands depth bound [] shown)
      (includeLiteral template filename path line) fun _ => Stands depth bound [] [] := by
  refine calm_tell.andThen fun _ => (load_ends hnamed).bind fun text => ends_peek fun token => ?_
  refine .ite (fun _ => ends_fail_bind (.naming hnamed (.indentedLiteral path))) fun _ => ?_
  exact calm_newNode.ends_mono (Nat.le_refl _)

theorem includeTemplate_ends (h : Statement template reading limit statement)
    (hle : bound ≤ limit) {filename path : String} {line : Int} :
    Ends template reading (Stands depth bound [] shown)
      (includeTemplate template statement filename path line)
      fun _ => Stands depth bound [] [] := by
  refine (checkCycle_ends hnamed).bind fun _ => calm_tell.andThen fun _ => ?_
  refine (load_ends hnamed).bind fun text => (composeInclude_ends hnamed).bind fun composed => ?_
  refine Calm.andThen (calm_assemble fun _ => ⟨_, _, rfl⟩) fun root => ends_isAt fun token => ?_
  refine .ite (fun _ => ?_) fun _ => ends_pure fun _ => Stands.forget
  refine Calm.andThen (calm_assemble fun _ => ⟨_, _, rfl⟩) fun target => ?_
  refine (indentedBlock_ends h (by omega)).bind fun content => ?_
  refine Calm.andThen (calm_assemble fun _ => ⟨_, _, rfl⟩) fun _ => ends_pure fun _ hstands => ?_
  exact hstands.mono (Nat.sub_le _ _)

end Naming

theorem includeStatement_ends (h : Statement template reading limit statement) :
    Statement template reading (limit + 1) (includeStatement template statement) := by
  intro depth bound hle
  refine ends_expect_mentions (.keep nofun nofun) nofun fun token hmentions => ?_
  split
  · next hnameless => exact ends_fail (.unnamed hnameless (hmentions (.inr rfl)) (.inr rfl))
  · next filename hfilename =>
      have hnamed : template.filename ≠ none := by simp [hfilename]
      exact .ite (fun _ => includeTemplate_ends hnamed h (by omega)) fun _ =>
        includeLiteral_ends hnamed

theorem extendsStatement_ends : Statement template reading limit (extendsStatement template) := by
  intro depth bound hle
  refine ends_expect_mentions (.keep nofun nofun) nofun fun token hmentions => ?_
  split
  · next hnameless => exact ends_fail (.unnamed hnameless (hmentions (.inl rfl)) (.inl rfl))
  · next filename hfilename =>
      have hnamed : template.filename ≠ none := by simp [hfilename]
      refine calm_get.andThen fun progress => .ite (fun _ => ?_) fun _ => ?_
      · exact ends_fail_bind (.naming hnamed (.duplicateExtends _))
      · refine (checkCycle_ends hnamed).bind fun _ => calm_tell.andThen fun _ => ?_
        refine (load_ends hnamed).bind fun text => ends_modify (fun _ => rfl) ?_
        exact calm_newNode.ends_mono (Nat.le_refl _)

/-! ## Statements -/

/-- A shorthand puts two tokens in, and takes them again with the tag that they make. -/
theorem shorthandStatement_ends {token : Token} (h : Shorthand template reading limit statement)
    (htoken : token.kind = .idName ∨ token.kind = .className) (hle : bound ≤ limit + 1) :
    Ends template reading (Stands depth bound [] [token]) (shorthandStatement template statement)
      fun _ => Stands depth (bound - 1) [] [] := by
  have hkeep : token.kind.keepsLevel = true := by
    rcases htoken with hkind | hkind
    · rw [hkind]
      rfl
    · rw [hkind]
      rfl
  have hplain : ¬ token.kind.NamesTemplate := by
    rcases htoken with hkind | hkind
    · simp [TokenKind.NamesTemplate, hkind]
    · simp [TokenKind.NamesTemplate, hkind]
  let tag : Token := ⟨token.line, .tag "div" false⟩
  have htag : ¬ tag.kind.NamesTemplate := by
    rintro (hkind | hkind)
    · exact nomatch hkind
    · exact nomatch hkind
  refine ends_advance (TokenKind.moves_of_keepsLevel hkeep depth)
    (TokenKind.ne_eos_of_keepsLevel hkeep) fun progress hreached hstands => ?_
  exact h depth (bound - 1) tag token (by omega) rfl htoken
    { progress with lexer := (progress.lexer.defer tag).defer token }
    ((hreached.defer htag).defer hplain) ((hstands.defer rfl).defer hkeep)

/-- **A statement** of any kind takes a token at least, and stays inside the same blocks. -/
theorem statementStep_ends (h : Statement template reading limit statement)
    (hshorthand : Shorthand template reading limit statement) :
    Statement template reading (limit + 1) (statementStep template statement) := by
  intro depth bound hle
  refine ends_peek fun token => ?_
  split
  · exact (tagStatement_ends h depth bound hle).forget
  · exact (mixinStatement_ends h depth bound hle).forget
  · exact (blockStatement_ends h depth bound hle).forget
  · exact (caseStatement_ends h depth bound hle).forget
  · exact (whenStatement_ends h depth bound hle).forget
  · exact (defaultStatement_ends h depth bound hle).forget
  · exact (extendsStatement_ends depth bound hle).forget
  · exact (includeStatement_ends h depth bound hle).forget
  · exact (doctypeStatement_ends depth bound hle).forget
  · exact (filterStatement_ends depth bound hle).forget
  · exact (commentStatement_ends h depth bound hle).forget
  · exact textLine_ends
  · exact (eachStatement_ends h depth bound hle).forget
  · exact (codeStatement_ends h depth bound hle).forget
  · exact (callStatement_ends h depth bound hle).forget
  · exact (interpolatedStatement_ends h depth bound hle).forget
  · exact (yieldStatement_ends depth bound hle).forget
  · next hkind => exact shorthandStatement_ends hshorthand (.inl hkind) hle
  · next hkind => exact shorthandStatement_ends hshorthand (.inr hkind) hle
  · exact ends_fail (.text (.unexpected _))

/-- A shorthand that was put in starts with its tag. -/
theorem statementStep_shorthand (h : Statement template reading limit statement) :
    Shorthand template reading limit (statementStep template statement) := by
  intro depth bound tag part hle htag hpart
  refine ends_peek_deferred ?_
  rw [htag]
  exact tagStatement_shorthand h depth bound tag part hle htag hpart

/-- **Two units of fuel for each token suffice.** -/
theorem statementWith_ends (fuel : Nat) :
    (∀ limit, (reading.enough → 2 * limit ≤ fuel + 1) →
        Statement template reading limit (statementWith template fuel))
      ∧ ∀ limit, (reading.enough → 2 * limit ≤ fuel) →
        Shorthand template reading limit (statementWith template fuel) := by
  induction fuel with
  | zero =>
      -- no state has a bound of zero, so the lack of fuel is not met
      refine ⟨fun limit hlimit depth bound hle => ?_,
        fun limit hlimit depth bound _ _ hle _ _ => ?_⟩
      · refine ends_exhausted fun henough => ?_
        obtain rfl : bound = 0 := by have := hlimit henough; omega
        exact not_stands_zero
      · refine ends_exhausted fun henough => ?_
        obtain rfl : bound = 0 := by have := hlimit henough; omega
        exact not_stands_zero
  | succ fuel ih =>
      obtain ⟨hstatement, hshorthand⟩ := ih
      refine ⟨fun limit hlimit => ?_, fun limit hlimit => ?_⟩
      · rcases limit with - | limit
        · intro depth bound hle
          obtain rfl := Nat.le_zero.mp hle
          exact .of_pre fun lexer hlexer => absurd hlexer (not_stands_zero lexer)
        · refine statementStep_ends (hstatement limit fun henough => ?_)
            (hshorthand limit fun henough => ?_)
          · have := hlimit henough
            omega
          · have := hlimit henough
            omega
      · exact statementStep_shorthand (hstatement limit hlimit)

/-- **A whole template ends**: it is read to the end of its stream, or refused. -/
theorem document_ends (template : Template) (start : Lexer) :
    Ends template ⟨True, start⟩ (Stands 0 bound [] []) (document template)
      fun _ => Stands 0 bound [] [] := by
  refine ends_tokenBound fun left hleft => ?_
  have hstatement : Statement template ⟨True, start⟩ left (statementWith template (2 * left)) :=
    (statementWith_ends (2 * left)).1 left fun _ => by omega
  exact (statements_ends hstatement (Nat.le_refl left)).imp (fun _ => id)
    fun _ _ hstands => hstands.mono hleft

end Stencil.Parse
