import Stencil.Proofs.Grammar.Ends

/-! # Nameless templates — what a file name changes

    A template without a file name must not name another one: the reader refuses
    `extends` and `include` on sight.  On everything else the file name has no
    influence on what is read.  `Agrees reader nameless same` says so: where the
    nameless reader is not refused for want of a name, both give results that
    are the same as far as the tokens behind them go, or both fail for one
    cause.

    So a template that is read without a file name up to its end, or up to a
    fault of another cause, is one without these statements, and it is read in
    the same way under every file name, whatever composing a template does. -/

namespace Stencil.Parse

variable {α β : Type} {template nameless : Template}

/-- Where the nameless reader is not refused for want of a name, the other one has the same result
    as far as `same` can tell, and leaves the same state of the lexer and no layout of its own, or
    it fails for the same cause. -/
def Agrees (reader nameless : Parse α) (same : α → α → Prop) : Prop :=
  ∀ progress other : Progress, progress.lexer = other.lexer → progress.rawBase = other.rawBase →
    match nameless other with
    | .ok result after => ∃ found final, reader progress = .ok found final ∧ same found result
        ∧ final.lexer = after.lexer ∧ final.rawBase = after.rawBase
        ∧ final.layout = progress.layout
    | .error fault _ => fault.cause.Unnamed
        ∨ ∃ found final, reader progress = .error found final ∧ found.cause = fault.cause

/-- Results that nothing depends on. -/
abbrev Same (α : Type) : α → α → Prop := fun _ _ => True

section Rules

variable {reader reader' : Parse α} {next next' : α → Parse β} {same : α → α → Prop}
  {goal : β → β → Prop}

theorem agrees_pure {result other : α} (h : same result other) :
    Agrees (pure result) (pure other) same :=
  fun progress _ hlexer hbase => ⟨result, progress, rfl, h, hlexer, hbase, rfl⟩

theorem Agrees.bind (h : Agrees reader reader' same)
    (hnext : ∀ result other, same result other → Agrees (next result) (next' other) goal) :
    Agrees (reader >>= next) (reader' >>= next') goal := by
  intro progress other hlexer hbase
  have hrun := h progress other hlexer hbase
  show match EStateM.bind reader' next' other with
    | .ok result after => ∃ found final, EStateM.bind reader next progress = .ok found final
        ∧ goal found result ∧ final.lexer = after.lexer ∧ final.rawBase = after.rawBase
        ∧ final.layout = progress.layout
    | .error fault _ => fault.cause.Unnamed
        ∨ ∃ found final, EStateM.bind reader next progress = .error found final
          ∧ found.cause = fault.cause
  unfold EStateM.bind
  cases hother : reader' other with
  | error fault after =>
      -- the first reader refuses, and the second one is not run
      rw [hother] at hrun
      refine hrun.imp_right ?_
      rintro ⟨found, final, hread, hcause⟩
      rw [hread]
      exact ⟨found, final, rfl, hcause⟩
  | ok result after =>
      rw [hother] at hrun
      obtain ⟨found, final, hread, hsame, hlexer', hbase', hlayout⟩ := hrun
      have hlast := hnext found result hsame final after hlexer' hbase'
      rw [hread]
      dsimp only
      cases hrest : next' result after with
      | ok last done =>
          rw [hrest] at hlast
          obtain ⟨found', final', hread', hsame', hlexer'', hbase'', hlayout'⟩ := hlast
          exact ⟨found', final', hread', hsame', hlexer'', hbase'', hlayout'.trans hlayout⟩
      | error fault done =>
          rw [hrest] at hlast
          exact hlast

/-- Readers with equal results, and those that go on with them. -/
theorem Agrees.andThen (h : Agrees reader reader' Eq)
    (hnext : ∀ result, Agrees (next result) (next' result) goal) :
    Agrees (reader >>= next) (reader' >>= next') goal :=
  h.bind fun result _ heq => heq ▸ hnext result

theorem Agrees.imp {weak : α → α → Prop} (h : Agrees reader reader' same)
    (himp : ∀ result other, same result other → weak result other) :
    Agrees reader reader' weak := by
  intro progress other hlexer hbase
  have hrun := h progress other hlexer hbase
  cases hother : reader' other with
  | ok result after =>
      rw [hother] at hrun
      obtain ⟨found, final, hread, hsame, hrest⟩ := hrun
      exact ⟨found, final, hread, himp _ _ hsame, hrest⟩
  | error fault after =>
      rw [hother] at hrun
      exact hrun

theorem Agrees.ite {condition : Prop} [Decidable condition] {other other' : Parse α}
    (h : Agrees reader reader' same) (hother : Agrees other other' same) :
    Agrees (if condition then reader else other) (if condition then reader' else other') same := by
  split
  · exact h
  · exact hother

/-- Both fail for one cause. -/
theorem agrees_fail {cause : Cause} {line line' : Int} :
    Agrees (fail template cause line) (fail nameless cause line') same :=
  fun _ _ _ _ => .inr ⟨_, _, rfl, rfl⟩

theorem agrees_throw {fault : Fault} : Agrees (throw fault) (throw fault) same :=
  fun _ _ _ _ => .inr ⟨_, _, rfl, rfl⟩

/-- The nameless template is refused for want of a name. -/
theorem agrees_refused {cause : Cause} {line : Int} (h : cause.Unnamed) :
    Agrees reader (fail nameless cause line) same :=
  fun _ _ _ _ => .inl h

/-- Readers that move nothing but the shared state. -/
theorem agrees_calm (h : Calm reader) (h' : Calm reader') : Agrees reader reader' (Same α) := by
  intro progress other hlexer hbase
  obtain ⟨result, after, hread, hlexer', hbase', hlayout⟩ := h progress
  obtain ⟨result', after', hread', hlexer'', hbase'', -⟩ := h' other
  rw [hread']
  exact ⟨result, after, hread, trivial, hlexer'.trans (hlexer.trans hlexer''.symm),
    hbase'.trans (hbase.trans hbase''.symm), hlayout⟩

/-- Changes of the state that agree on the tokens and leave the layout alone. -/
theorem agrees_modify {f : Progress → Progress}
    (hlexer : ∀ progress other : Progress, progress.lexer = other.lexer →
      (f progress).lexer = (f other).lexer)
    (hbase : ∀ progress other : Progress, progress.rawBase = other.rawBase →
      (f progress).rawBase = (f other).rawBase)
    (hlayout : ∀ progress, (f progress).layout = progress.layout) :
    Agrees (modify f) (modify f) Eq :=
  fun progress _ hlexers hbases =>
    ⟨⟨⟩, f progress, rfl, rfl, hlexer _ _ hlexers, hbase _ _ hbases, hlayout progress⟩

/-- The indentation of an open raw body is part of what both agree on. -/
theorem agrees_rawBase {next next' : Progress → Parse β}
    (h : ∀ progress other : Progress, progress.rawBase = other.rawBase →
      Agrees (next progress) (next' other) goal) :
    Agrees (get >>= next) (get >>= next') goal :=
  fun progress other hlexer hbase => h progress other hbase progress other hlexer hbase

end Rules

/-! ## Tokens -/

section Tokens

theorem agrees_onLexer {action : Lexer → Lexer.Outcome α} :
    Agrees (onLexer template action) (onLexer nameless action) Eq := by
  intro progress other hlexer hbase
  unfold onLexer
  rw [hlexer]
  rcases action other.lexer with ⟨fault | result, after⟩
  · exact .inr ⟨_, _, rfl, rfl⟩
  · exact ⟨_, _, rfl, rfl, rfl, hbase, rfl⟩

theorem agrees_peekAt (offset : Nat) :
    Agrees (peekAt template offset) (peekAt nameless offset) Eq :=
  agrees_onLexer

theorem agrees_peek : Agrees (peek template) (peek nameless) Eq := agrees_peekAt 0

theorem agrees_advance : Agrees (advance template) (advance nameless) Eq := agrees_onLexer

theorem Agrees.discard {reader reader' : Parse α} {same : α → α → Prop}
    (h : Agrees reader reader' same) :
    Agrees (Functor.discard reader) (Functor.discard reader') Eq := by
  rw [← bind_pure (Functor.discard reader), ← bind_pure (Functor.discard reader'), discard_bind,
    discard_bind]
  exact h.bind fun _ _ _ => agrees_pure rfl

theorem agrees_drop : Agrees (discard (advance template)) (discard (advance nameless)) Eq :=
  agrees_advance.discard

theorem agrees_isAt (kind : TokenKind) : Agrees (isAt template kind) (isAt nameless kind) Eq :=
  agrees_peek.andThen fun _ => agrees_pure rfl

theorem agrees_expect (kind : TokenKind) :
    Agrees (expect template kind) (expect nameless kind) Eq :=
  agrees_peek.andThen fun _ => .ite agrees_advance agrees_fail

theorem agrees_tokenBound : Agrees tokenBound tokenBound Eq :=
  fun progress other hlexer hbase =>
    ⟨_, progress, rfl, by rw [hlexer], hlexer, hbase, rfl⟩

theorem agrees_defer (tokens : List Token) : Agrees (defer tokens) (defer tokens) Eq :=
  agrees_modify (fun _ _ hlexer => congrArg (tokens.foldl Lexer.defer) hlexer) (fun _ _ => id)
    fun _ => rfl

theorem agrees_setMode (mode : Mode) : Agrees (setMode mode) (setMode mode) Eq :=
  agrees_modify (fun _ _ hlexer => congrArg (fun lexer : Lexer => { lexer with mode }) hlexer)
    (fun _ _ => id) fun _ => rfl

theorem agrees_skip (count : Nat) : Agrees (skip template count) (skip nameless count) Eq := by
  induction count with
  | zero => exact agrees_pure rfl
  | succ count ih => exact agrees_drop.andThen fun _ => ih

theorem agrees_skipNewlinesWith (fuel : Nat) :
    Agrees (skipNewlinesWith template fuel) (skipNewlinesWith nameless fuel) Eq := by
  induction fuel with
  | zero => exact agrees_throw
  | succ fuel ih =>
      exact (agrees_isAt _).andThen fun _ =>
        .ite (agrees_drop.andThen fun _ => ih) (agrees_pure rfl)

theorem agrees_skipNewlines : Agrees (skipNewlines template) (skipNewlines nameless) Eq :=
  agrees_tokenBound.andThen fun fuel => agrees_skipNewlinesWith fuel

theorem agrees_newlinesFrom (fuel : Nat) : ∀ offset : Nat,
    Agrees (newlinesFrom template fuel offset) (newlinesFrom nameless fuel offset) Eq := by
  induction fuel with
  | zero => exact fun _ => agrees_throw
  | succ fuel ih =>
      exact fun offset => (agrees_peekAt offset).andThen fun _ =>
        .ite (ih (offset + 1)) (agrees_pure rfl)

end Tokens

/-! ## Nodes and raw bodies -/

theorem agrees_newNode {line line' : Int} {kind kind' : Kind BlockId}
    {blocks blocks' : List (Block BlockId Draft)} {code code' : Option Draft} :
    Agrees (newNode line kind blocks code) (newNode line' kind' blocks' code') (Same Draft) :=
  agrees_calm calm_newNode calm_newNode

theorem agrees_newBlock {line line' : Int} {nodes nodes' : List Draft} {props props' : BlockProps} :
    Agrees (newBlock line nodes props) (newBlock line' nodes' props')
      (Same (Block BlockId Draft)) :=
  agrees_calm calm_newBlock calm_newBlock

theorem agrees_textLine : Agrees (textLine template) (textLine nameless) (Same Draft) :=
  (agrees_expect _).andThen fun _ => agrees_newNode

theorem agrees_doctypeStatement :
    Agrees (doctypeStatement template) (doctypeStatement nameless) (Same Draft) :=
  (agrees_expect _).andThen fun _ => agrees_newNode

theorem agrees_yieldStatement :
    Agrees (yieldStatement template) (yieldStatement nameless) (Same Draft) :=
  (agrees_expect _).andThen fun _ => agrees_newBlock.bind fun _ _ _ => agrees_pure trivial

theorem agrees_rawLinesWith {deeper deeper' : Parse (Block BlockId Draft)}
    (h : Agrees deeper deeper' (Same _)) {indent : Nat} (fuel : Nat) :
    Agrees (rawLinesWith template deeper indent fuel) (rawLinesWith nameless deeper' indent fuel)
      (Same (List Draft)) := by
  induction fuel with
  | zero => exact agrees_throw
  | succ fuel ih =>
      refine agrees_peek.andThen fun token => ?_
      cases token.kind with
      | outdent => exact agrees_pure trivial
      | newline => exact agrees_drop.andThen fun _ => ih
      | indent => exact h.bind fun _ _ _ => ih.bind fun _ _ _ => agrees_pure trivial
      | _ =>
          exact agrees_advance.andThen fun _ => agrees_newNode.bind fun _ _ _ =>
            ih.bind fun _ _ _ => agrees_pure trivial

theorem agrees_rawBlockWith (fuel : Nat) :
    Agrees (rawBlockWith template fuel) (rawBlockWith nameless fuel)
      (Same (Block BlockId Draft)) := by
  induction fuel with
  | zero => exact agrees_throw
  | succ fuel ih =>
      refine (agrees_expect _).andThen fun token => agrees_rawBase fun progress other hbase => ?_
      rw [hbase]
      refine Agrees.andThen (agrees_modify (fun _ _ => id) (fun _ _ _ => rfl) fun _ => rfl)
        fun _ => agrees_tokenBound.andThen fun fuel' => ?_
      refine (agrees_rawLinesWith ih fuel').bind fun _ _ _ =>
        Agrees.andThen (agrees_modify ?_ ?_ ?_)
        fun _ => (agrees_expect _).discard.andThen fun _ => agrees_newBlock
      · intro progress other hlexer
        split <;> split <;> exact hlexer
      · intro progress other hbase
        rw [hbase]
        split
        · rfl
        · exact hbase
      · intro progress
        split <;> rfl

theorem agrees_rawBlock :
    Agrees (rawBlock template) (rawBlock nameless) (Same (Block BlockId Draft)) :=
  (agrees_setMode _).andThen fun _ => agrees_tokenBound.andThen fun fuel =>
    (agrees_rawBlockWith fuel).bind fun _ _ _ => (agrees_setMode _).andThen fun _ =>
      agrees_pure trivial

theorem agrees_filterStatement :
    Agrees (filterStatement template) (filterStatement nameless) (Same Draft) := by
  refine (agrees_expect _).andThen fun token => agrees_peek.andThen fun after => .ite ?_ ?_
  · refine agrees_drop.andThen fun _ => Agrees.andThen (agrees_pure rfl) fun attributes => ?_
    exact agrees_rawBlock.bind fun _ _ _ => agrees_newNode
  · refine Agrees.andThen (agrees_pure rfl) fun attributes => ?_
    exact agrees_rawBlock.bind fun _ _ _ => agrees_newNode

/-! ## Productions with statements inside -/

section Productions

variable {inner inner' : Parse Draft} (h : Agrees inner inner' (Same Draft))
include h

theorem agrees_statementsWith {stop : TokenKind} (fuel : Nat) :
    Agrees (statementsWith template inner stop fuel) (statementsWith nameless inner' stop fuel)
      (Same (List Draft)) := by
  induction fuel with
  | zero => exact agrees_throw
  | succ fuel ih =>
      refine agrees_peek.andThen fun token => .ite (agrees_pure trivial) (.ite ?_ ?_)
      · exact agrees_drop.andThen fun _ => ih
      · exact h.bind fun _ _ _ => ih.bind fun _ _ _ => agrees_pure trivial

theorem agrees_statements {stop : TokenKind} :
    Agrees (statements template inner stop) (statements nameless inner' stop)
      (Same (List Draft)) :=
  agrees_tokenBound.andThen fun fuel => agrees_statementsWith h fuel

theorem agrees_indentedBlock :
    Agrees (indentedBlock template inner) (indentedBlock nameless inner')
      (Same (Block BlockId Draft)) :=
  (agrees_expect _).andThen fun _ => (agrees_statements h).bind fun _ _ _ =>
    (agrees_expect _).discard.andThen fun _ => agrees_newBlock

theorem agrees_armBody :
    Agrees (armBody template inner) (armBody nameless inner') (Same (Block BlockId Draft)) := by
  refine agrees_peek.andThen fun token => .ite ?_ (agrees_indentedBlock h)
  exact agrees_drop.andThen fun _ => h.bind fun _ _ _ => agrees_newBlock

theorem agrees_caseStatement :
    Agrees (caseStatement template inner) (caseStatement nameless inner') (Same Draft) :=
  (agrees_expect _).andThen fun _ => (agrees_indentedBlock h).bind fun _ _ _ => agrees_newNode

theorem agrees_whenStatement :
    Agrees (whenStatement template inner) (whenStatement nameless inner') (Same Draft) :=
  (agrees_expect _).andThen fun _ => (agrees_armBody h).bind fun _ _ _ => agrees_newNode

theorem agrees_defaultStatement :
    Agrees (defaultStatement template inner) (defaultStatement nameless inner') (Same Draft) :=
  (agrees_expect _).andThen fun _ => (agrees_armBody h).bind fun _ _ _ => agrees_newNode

theorem agrees_codeStatement :
    Agrees (codeStatement template inner) (codeStatement nameless inner') (Same Draft) := by
  refine (agrees_expect _).andThen fun token => agrees_tokenBound.andThen fun fuel => ?_
  refine (agrees_newlinesFrom fuel 0).andThen fun breaks => (agrees_peekAt breaks).andThen
    fun after => .ite ?_ agrees_newNode
  exact (agrees_skip breaks).andThen fun _ => (agrees_indentedBlock h).bind fun _ _ _ =>
    agrees_newNode

theorem agrees_eachStatement :
    Agrees (eachStatement template inner) (eachStatement nameless inner') (Same Draft) := by
  refine (agrees_expect _).andThen fun token => (agrees_indentedBlock h).bind fun _ _ _ => ?_
  refine agrees_peek.andThen fun after => .ite ?_ agrees_newNode
  exact agrees_drop.andThen fun _ => (agrees_indentedBlock h).bind fun _ _ _ => agrees_newNode

theorem agrees_commentStatement :
    Agrees (commentStatement template inner) (commentStatement nameless inner') (Same Draft) := by
  refine (agrees_expect _).andThen fun token => (agrees_isAt _).andThen fun found => ?_
  exact .ite ((agrees_indentedBlock h).bind fun _ _ _ => agrees_newNode) agrees_newNode

end Productions

/-! ## Elements -/

/-- Elements that are being read have the same name and attributes. -/
def SameElement (opened other : OpenElement) : Prop := opened.element = other.element

/-- Putting a body behind the content on the line leaves name and attributes as they are. -/
theorem joinBody_element (opened : OpenElement) (body : Block BlockId Draft) :
    (joinBody opened body).element = opened.element := by
  unfold joinBody
  split <;> rfl

theorem agrees_readAttributesWith (fuel : Nat) : ∀ {classes : List String} {element : Element},
    Agrees (readAttributesWith template fuel classes element)
      (readAttributesWith nameless fuel classes element) Eq := by
  induction fuel with
  | zero => exact agrees_throw
  | succ fuel ih =>
      intro classes element
      refine agrees_peek.andThen fun token => ?_
      cases token.kind with
      | idName => exact agrees_drop.andThen fun _ => ih
      | className => exact agrees_drop.andThen fun _ => ih
      | attrs => exact agrees_drop.andThen fun _ => ih
      | _ => exact agrees_pure rfl

theorem agrees_takeDot : Agrees (takeDot template) (takeDot nameless) Eq := by
  refine agrees_peek.andThen fun token => .ite ?_ (agrees_pure rfl)
  exact agrees_drop.andThen fun _ => agrees_pure rfl

section Elements

variable {inner inner' : Parse Draft} (h : Agrees inner inner' (Same Draft))
include h

theorem agrees_readLineContent {opened other : OpenElement} (hsame : SameElement opened other) :
    Agrees (readLineContent template inner opened) (readLineContent nameless inner' other)
      SameElement := by
  refine agrees_peek.andThen fun token => ?_
  cases token.kind with
  | text => exact agrees_textLine.bind fun _ _ _ => agrees_pure hsame
  | code => exact (agrees_codeStatement h).bind fun _ _ _ => agrees_pure hsame
  | colon =>
      exact agrees_drop.andThen fun _ => h.bind fun _ _ _ => agrees_newBlock.bind fun _ _ _ =>
        agrees_pure hsame
  | _ => exact agrees_pure hsame

theorem agrees_readBody {opened other : OpenElement} (hsame : SameElement opened other) :
    Agrees (readBody template inner opened) (readBody nameless inner' other) SameElement := by
  have hjoin : ∀ body body', SameElement (joinBody opened body) (joinBody other body') := by
    intro body body'
    rw [SameElement, joinBody_element, joinBody_element]
    exact hsame
  unfold readBody
  rw [hsame]
  refine (agrees_isAt _).andThen fun _ => .ite (.ite ?_ ?_) (agrees_pure hsame)
  · exact agrees_rawBlock.bind fun _ _ _ => agrees_pure (hjoin _ _)
  · exact (agrees_indentedBlock h).bind fun _ _ _ => agrees_pure (hjoin _ _)

theorem agrees_readElement {element : Element} :
    Agrees (readElement template inner element) (readElement nameless inner' element)
      SameElement := by
  refine agrees_newBlock.bind fun body body' _ => ?_
  refine (agrees_tokenBound.andThen fun fuel => agrees_readAttributesWith fuel).andThen
    fun element => agrees_takeDot.andThen fun dot => ?_
  have hbody : SameElement { element, body } { element, body := body' } := rfl
  refine (agrees_readLineContent h hbody).bind fun opened other hsame => ?_
  refine agrees_skipNewlines.andThen fun _ => agrees_readBody h ?_
  exact congrArg (fun element : Element => { element with textOnly := hasRawBody element dot })
    hsame

theorem agrees_tagStatement :
    Agrees (tagStatement template inner) (tagStatement nameless inner') (Same Draft) :=
  (agrees_expect _).andThen fun _ => (agrees_readElement h).bind fun _ _ _ => agrees_newNode

theorem agrees_interpolatedStatement :
    Agrees (interpolatedStatement template inner) (interpolatedStatement nameless inner')
      (Same Draft) :=
  (agrees_expect _).andThen fun _ => (agrees_readElement h).bind fun _ _ _ => agrees_newNode

theorem agrees_callStatement :
    Agrees (callStatement template inner) (callStatement nameless inner') (Same Draft) :=
  (agrees_expect _).andThen fun _ => (agrees_readElement h).bind fun _ _ _ => agrees_newNode

theorem agrees_shorthandStatement :
    Agrees (shorthandStatement template inner) (shorthandStatement nameless inner')
      (Same Draft) :=
  agrees_advance.andThen fun _ => (agrees_defer _).andThen fun _ => h

/-! ## Composition -/

theorem agrees_namedContent {line : Int} :
    Agrees (namedContent template inner line) (namedContent nameless inner' line)
      (Same (Block BlockId Draft)) :=
  (agrees_isAt _).andThen fun _ => .ite (agrees_indentedBlock h)
    (agrees_newNode.bind fun _ _ _ => agrees_newBlock)

theorem agrees_blockStatement :
    Agrees (blockStatement template inner) (blockStatement nameless inner') (Same Draft) :=
  (agrees_expect _).andThen fun _ => (agrees_namedContent h).bind fun _ _ _ =>
    (agrees_calm calm_defineBlock calm_defineBlock).bind fun _ _ _ => agrees_pure trivial

theorem agrees_mixinStatement :
    Agrees (mixinStatement template inner) (mixinStatement nameless inner') (Same Draft) := by
  refine (agrees_expect _).andThen fun token => (agrees_isAt _).andThen fun found =>
    .ite ?_ agrees_newNode
  refine (agrees_indentedBlock h).bind fun _ _ _ => agrees_newNode.bind fun _ _ _ => ?_
  exact (agrees_calm calm_modifyAssembly calm_modifyAssembly).bind fun _ _ _ => agrees_pure trivial

end Elements

/-! ## Statements -/

section Statements

variable (hnameless : nameless.filename = none)
include hnameless

/-- A nameless template must not extend another. -/
theorem agrees_extendsStatement :
    Agrees (extendsStatement template) (extendsStatement nameless) (Same Draft) := by
  refine (agrees_expect _).andThen fun token => ?_
  rw [hnameless]
  exact agrees_refused (.inl rfl)

/-- A nameless template must not include another. -/
theorem agrees_includeStatement {inner inner' : Parse Draft} :
    Agrees (includeStatement template inner) (includeStatement nameless inner') (Same Draft) := by
  refine (agrees_expect _).andThen fun token => ?_
  rw [hnameless]
  exact agrees_refused (.inr rfl)

/-- **A statement is read in the same way under every file name.** -/
theorem agrees_statementWith (fuel : Nat) :
    Agrees (statementWith template fuel) (statementWith nameless fuel) (Same Draft) := by
  induction fuel with
  | zero => exact agrees_throw
  | succ fuel ih =>
      refine agrees_peek.andThen fun token => ?_
      cases token.kind with
      | tag => exact agrees_tagStatement ih
      | mixin => exact agrees_mixinStatement ih
      | block => exact agrees_blockStatement ih
      | case => exact agrees_caseStatement ih
      | when => exact agrees_whenStatement ih
      | default => exact agrees_defaultStatement ih
      | «extends» => exact agrees_extendsStatement hnameless
      | «include» => exact agrees_includeStatement hnameless
      | doctype => exact agrees_doctypeStatement
      | filter => exact agrees_filterStatement
      | comment => exact agrees_commentStatement ih
      | text => exact agrees_textLine
      | each => exact agrees_eachStatement ih
      | code => exact agrees_codeStatement ih
      | call => exact agrees_callStatement ih
      | interpolation => exact agrees_interpolatedStatement ih
      | yield => exact agrees_yieldStatement
      | idName => exact agrees_shorthandStatement ih
      | className => exact agrees_shorthandStatement ih
      | _ => exact agrees_fail

/-- **A template is read in the same way under every file name**, unless it names another. -/
theorem agrees_document :
    Agrees (document template) (document nameless) (Same (List Draft)) :=
  agrees_tokenBound.andThen fun _ => agrees_statements (agrees_statementWith hnameless _)

end Statements

end Stencil.Parse
