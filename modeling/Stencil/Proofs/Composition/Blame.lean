import Stencil.Proofs.Composition.Confined
import Stencil.Proofs.Composition.Twins
import Stencil.Proofs.Lexer.SourceLines

/-! # Blame — which template a fault is of

    A template is read with a way to compose those that it includes.  When the
    reading fails, either it does so whatever the compositions that fail would
    have given, and the fault is the template's own; or it stops with the first
    composition that fails, for whatever fault that one does.  `Traced` tells
    the two apart for one run, and says of a fault of the template's own that it
    is on a line of its source, under its name.

    Every production is traced, since every fault that it raises itself is raised
    for a token at hand, and these are on lines of the source. -/

namespace Stencil

/-- A way to compose templates. -/
abbrev Composer := Source → Assemble Composed

/-- A way to compose templates that agrees with another one wherever that succeeds. -/
def Mends (other compose : Composer) : Prop :=
  ∀ child assembly composed after, compose child assembly = .ok composed after →
    other child assembly = .ok composed after

theorem Mends.refl (compose : Composer) : Mends compose compose := fun _ _ _ _ h => h

/-- A fault on a line of a template with a name and so many lines, unless fuel was short. -/
def Fault.Points (fault : Fault) (filename : Option String) (total : Nat) : Prop :=
  fault.cause = .exhausted
    ∨ ∃ line, fault.place = ⟨some line, filename⟩ ∧ Lexer.OnLines total line

/-- A source that a template may have composed. -/
structure Template.Names (template : Template) (child : Source) : Prop where
  lineage : child.lineage = template.lineage
  loaded : ∃ path, child.filename = some path ∧ Path.normalizeString path = path
    ∧ path ∉ template.lineage ∧ template.config.activeLoader.load path = .ok child.text

theorem Template.composing_filename (template : Template) (compose : Composer) :
    (template.composing compose).filename = template.filename := rfl

theorem Template.composing_config (template : Template) (compose : Composer) :
    (template.composing compose).config = template.config := rfl

namespace Parse

variable {α β : Type} {template : Template} {total : Nat}

/-- What a reader does in a state, as far as compositions that fail are concerned: it gives an
    answer or stops for a fault of the template, whatever they would have given, or it stops with
    the first of them, for whatever fault that does. -/
inductive Traced (template : Template) (total : Nat) (reader : Composer → Parse α)
    (post : α → Progress → Prop) (progress : Progress) : Prop where
  | answers {result : α} {after : Progress}
      (same : ∀ other, Mends other template.compose → reader other progress = .ok result after)
      (ends : post result after) : Traced template total reader post progress
  | stops {fault : Fault} {after : Progress}
      (same : ∀ other, Mends other template.compose → reader other progress = .error fault after)
      (points : fault.Points template.filename total) :
      Traced template total reader post progress
  | passes {child : Source} {middle : Assembly} (names : template.Names child)
      (fails : ∃ fault after, template.compose child middle = .error fault after)
      (same : ∀ other, Mends other template.compose → ∀ fault after,
        other child middle = .error fault after →
          ∃ last, reader other progress = .error fault last) :
      Traced template total reader post progress

/-- From every state of the source the reader is traced, to a good result. -/
def Traces (template : Template) (total : Nat) (good : α → Prop)
    (reader : Composer → Parse α) : Prop :=
  ∀ progress, progress.lexer.Spans total →
    Traced template total reader (fun result after => good result ∧ after.lexer.Spans total)
      progress

/-- Any result is good. -/
def anyResult : α → Prop := fun _ => True

/-- A token on a line of the source. -/
def tokenOn (total : Nat) : Token → Prop := fun token => Lexer.OnLines total token.line

section Rules

variable {reader reader' : Composer → Parse α} {next : Composer → α → Parse β}
  {good good' : α → Prop} {goal : β → Prop}

/-- A reader that composes nothing is traced if its faults are the template's. -/
theorem traces_own {reader : Parse α} (h : ∀ progress, progress.lexer.Spans total →
    match reader progress with
    | .ok result after => good result ∧ after.lexer.Spans total
    | .error fault _ => fault.Points template.filename total) :
    Traces template total good fun _ => reader := by
  intro progress hspans
  have hrun := h progress hspans
  cases hread : reader progress with
  | ok result after =>
      rw [hread] at hrun
      exact .answers (fun _ _ => hread) hrun
  | error fault after =>
      rw [hread] at hrun
      exact .stops (fun _ _ => hread) hrun

theorem traces_pure {result : α} (h : good result) :
    Traces template total good fun _ => (pure result : Parse α) :=
  traces_own fun _ hspans => ⟨h, hspans⟩

theorem traces_any {result : α} :
    Traces template total anyResult fun _ => (pure result : Parse α) :=
  traces_pure trivial

theorem Traces.bind (h : Traces template total good reader)
    (hnext : ∀ result, good result → Traces template total goal fun other => next other result) :
    Traces template total goal fun other => reader other >>= next other := by
  intro progress hspans
  cases h progress hspans with
  | @answers result middle same ends =>
      have hbind : ∀ other, Mends other template.compose →
          (reader other >>= next other) progress = next other result middle := by
        intro other hmends
        show EStateM.bind (reader other) (next other) progress = _
        rw [EStateM.bind, same other hmends]
      cases hnext result ends.1 middle ends.2 with
      | answers last ends =>
          exact .answers (fun other h => (hbind other h).trans (last other h)) ends
      | stops last points =>
          exact .stops (fun other h => (hbind other h).trans (last other h)) points
      | passes names fails last =>
          refine .passes names fails fun other h fault after hfault => ?_
          rw [hbind other h]
          exact last other h fault after hfault
  | @stops fault after same points =>
      have hbind : ∀ other, Mends other template.compose →
          (reader other >>= next other) progress = .error fault after := by
        intro other hmends
        show EStateM.bind (reader other) (next other) progress = _
        rw [EStateM.bind, same other hmends]
      exact .stops hbind points
  | passes names fails same =>
      refine .passes names fails fun other hmends fault after hfault => ?_
      obtain ⟨last, hread⟩ := same other hmends fault after hfault
      refine ⟨last, ?_⟩
      show EStateM.bind (reader other) (next other) progress = _
      rw [EStateM.bind, hread]

theorem Traces.ite {condition : Prop} [Decidable condition]
    (h : condition → Traces template total good reader)
    (h' : ¬ condition → Traces template total good reader') :
    Traces template total good fun other => if condition then reader other else reader' other := by
  by_cases hcondition : condition
  · simp only [if_pos hcondition]
    exact h hcondition
  · simp only [if_neg hcondition]
    exact h' hcondition

theorem traces_fail {cause : Cause} {line : Int} (hline : Lexer.OnLines total line) :
    Traces template total good fun other =>
      (fail (template.composing other) cause line : Parse α) := by
  have hpoints : Fault.Points ⟨cause, ⟨some line, template.filename⟩⟩ template.filename total :=
    .inr ⟨line, rfl, hline⟩
  have hown : Traces template total good fun _ => (fail template cause line : Parse α) :=
    traces_own fun _ _ => hpoints
  exact hown

/-- After a failure nothing is read. -/
theorem traces_fail_bind {cause : Cause} {line : Int} (hline : Lexer.OnLines total line) :
    Traces template total goal fun other =>
      fail (template.composing other) cause line >>= next other := by
  have hfail : Traces template total (fun _ => False) fun other =>
      (fail (template.composing other) cause line : Parse α) := traces_fail hline
  exact hfail.bind fun _ h => h.elim

theorem traces_exhausted :
    Traces template total good fun _ => (throw ⟨.exhausted, {}⟩ : Parse α) := by
  have hpoints : Fault.Points ⟨.exhausted, {}⟩ template.filename total := .inl rfl
  exact traces_own fun _ _ => hpoints

/-- A reader that succeeds and leaves the lexer alone. -/
theorem traces_calm {reader : Parse α} (h : Calm reader) :
    Traces template total anyResult fun _ => reader := by
  intro progress hspans
  obtain ⟨result, after, hread, hlexer, -⟩ := h progress
  exact .answers (fun _ _ => hread) ⟨trivial, hlexer ▸ hspans⟩

theorem traces_modify {f : Progress → Progress}
    (h : ∀ progress : Progress, progress.lexer.Spans total → (f progress).lexer.Spans total) :
    Traces template total anyResult fun _ => (modify f : Parse PUnit) :=
  traces_own fun progress hspans => ⟨trivial, h progress hspans⟩

theorem Traces.discard (h : Traces template total good reader) :
    Traces template total anyResult fun other => Functor.discard (reader other) := by
  have hbind : Traces template total anyResult fun other =>
      (reader other >>= fun _ => pure () : Parse Unit) := h.bind fun _ _ => traces_any
  intro progress hspans
  exact hbind progress hspans

end Rules

/-! ## Tokens -/

section Tokens

/-- What a lexer does is on a line of the source, and leads to one of its states. -/
theorem traces_onLexer {action : Lexer → Lexer.Outcome Token}
    (h : ∀ lexer : Lexer, lexer.Spans total → Lexer.OnLines total (Lexer.lineOf (action lexer).1)
      ∧ ((action lexer).1.isOk → (action lexer).2.Spans total)) :
    Traces template total (tokenOn total) fun other =>
      onLexer (template.composing other) action := by
  have hown : Traces template total (tokenOn total) fun _ => onLexer template action := by
    refine traces_own fun progress hspans => ?_
    obtain ⟨hline, hafter⟩ := h progress.lexer hspans
    unfold onLexer
    rcases haction : action progress.lexer with ⟨fault | token, lexer⟩
    all_goals rw [haction] at hline hafter
    · exact .inr ⟨fault.line, rfl, hline⟩
    · exact ⟨hline, hafter rfl⟩
  exact hown

theorem traces_peekAt (offset : Nat) :
    Traces template total (tokenOn total) fun other =>
      peekAt (template.composing other) offset :=
  traces_onLexer fun _ hspans => hspans.peekAt offset

theorem traces_peek :
    Traces template total (tokenOn total) fun other => peek (template.composing other) :=
  traces_peekAt 0

theorem traces_advance :
    Traces template total (tokenOn total) fun other => advance (template.composing other) :=
  traces_onLexer fun _ hspans => hspans.advance

theorem traces_drop :
    Traces template total anyResult fun other => discard (advance (template.composing other)) :=
  traces_advance.discard

theorem traces_isAt (kind : TokenKind) :
    Traces template total anyResult fun other => isAt (template.composing other) kind :=
  traces_peek.bind fun _ _ => traces_any

theorem traces_expect (kind : TokenKind) :
    Traces template total (tokenOn total) fun other => expect (template.composing other) kind :=
  traces_peek.bind fun _ hline => .ite (fun _ => traces_advance) fun _ => traces_fail hline

theorem traces_tokenBound : Traces template total anyResult fun _ => tokenBound :=
  (traces_calm calm_get).bind fun _ _ => traces_any

/-- Tokens of the source are put in. -/
theorem traces_defer {tokens : List Token} (h : ∀ token ∈ tokens, tokenOn total token) :
    Traces template total anyResult fun _ => defer tokens := by
  refine traces_modify fun progress hspans => ?_
  show (tokens.foldl Lexer.defer progress.lexer).Spans total
  induction tokens generalizing progress with
  | nil => exact hspans
  | cons token tokens ih =>
      exact ih (fun other hother => h other (List.mem_cons_of_mem _ hother))
        { progress with lexer := progress.lexer.defer token }
        (hspans.defer (h token List.mem_cons_self))

theorem traces_setMode (mode : Mode) : Traces template total anyResult fun _ => setMode mode :=
  traces_modify fun _ hspans => ⟨hspans.first, hspans.lastLine, hspans.waiting⟩

theorem traces_skip (count : Nat) :
    Traces template total anyResult fun other => skip (template.composing other) count := by
  induction count with
  | zero => exact traces_any
  | succ count ih => exact traces_drop.bind fun _ _ => ih

theorem traces_skipNewlinesWith (fuel : Nat) :
    Traces template total anyResult fun other =>
      skipNewlinesWith (template.composing other) fuel := by
  induction fuel with
  | zero => exact traces_exhausted
  | succ fuel ih =>
      exact (traces_isAt _).bind fun _ _ => .ite (fun _ => traces_drop.bind fun _ _ => ih)
        fun _ => traces_any

theorem traces_skipNewlines :
    Traces template total anyResult fun other => skipNewlines (template.composing other) :=
  traces_tokenBound.bind fun fuel _ => traces_skipNewlinesWith fuel

theorem traces_newlinesFrom (fuel : Nat) : ∀ offset : Nat,
    Traces template total anyResult fun other =>
      newlinesFrom (template.composing other) fuel offset := by
  induction fuel with
  | zero => exact fun _ => traces_exhausted
  | succ fuel ih =>
      exact fun offset => (traces_peekAt offset).bind fun _ _ =>
        .ite (fun _ => ih (offset + 1)) fun _ => traces_any

end Tokens

/-! ## Nodes and raw bodies -/

theorem traces_newNode {line : Int} {kind : Kind BlockId} {blocks : List (Block BlockId Draft)}
    {code : Option Draft} :
    Traces template total anyResult fun _ => newNode line kind blocks code :=
  traces_calm calm_newNode

theorem traces_newBlock {line : Int} {nodes : List Draft} {props : BlockProps} :
    Traces template total anyResult fun _ => newBlock line nodes props :=
  traces_calm calm_newBlock

theorem traces_textLine :
    Traces template total anyResult fun other => textLine (template.composing other) :=
  (traces_expect _).bind fun _ _ => traces_newNode

theorem traces_doctypeStatement :
    Traces template total anyResult fun other => doctypeStatement (template.composing other) :=
  (traces_expect _).bind fun _ _ => traces_newNode

theorem traces_yieldStatement :
    Traces template total anyResult fun other => yieldStatement (template.composing other) :=
  (traces_expect _).bind fun _ _ => traces_newBlock.bind fun _ _ => traces_any

theorem traces_rawLinesWith {deeper : Composer → Parse (Block BlockId Draft)}
    (h : Traces template total anyResult deeper) {indent : Nat} (fuel : Nat) :
    Traces template total anyResult fun other =>
      rawLinesWith (template.composing other) (deeper other) indent fuel := by
  induction fuel with
  | zero => exact traces_exhausted
  | succ fuel ih =>
      refine traces_peek.bind fun token _ => ?_
      cases token.kind with
      | outdent => exact traces_any
      | newline => exact traces_drop.bind fun _ _ => ih
      | indent => exact h.bind fun _ _ => ih.bind fun _ _ => traces_any
      | _ =>
          exact traces_advance.bind fun _ _ => traces_newNode.bind fun _ _ =>
            ih.bind fun _ _ => traces_any

theorem traces_rawBlockWith (fuel : Nat) :
    Traces template total anyResult fun other =>
      rawBlockWith (template.composing other) fuel := by
  induction fuel with
  | zero => exact traces_exhausted
  | succ fuel ih =>
      refine (traces_expect _).bind fun token _ => (traces_calm calm_get).bind fun progress _ => ?_
      refine Traces.bind (traces_modify fun _ hspans => hspans) fun _ _ =>
        traces_tokenBound.bind fun bound _ => ?_
      refine (traces_rawLinesWith ih bound).bind fun _ _ =>
        Traces.bind (traces_modify fun after hspans => ?_) fun _ _ =>
          (traces_expect _).discard.bind fun _ _ => traces_newBlock
      split
      · exact hspans
      · exact hspans

theorem traces_rawBlock :
    Traces template total anyResult fun other => rawBlock (template.composing other) :=
  (traces_setMode _).bind fun _ _ => traces_tokenBound.bind fun fuel _ =>
    (traces_rawBlockWith fuel).bind fun _ _ => (traces_setMode _).bind fun _ _ =>
      traces_any

theorem traces_filterStatement :
    Traces template total anyResult fun other => filterStatement (template.composing other) := by
  refine (traces_expect _).bind fun token _ => traces_peek.bind fun after _ =>
    .ite (fun _ => ?_) fun _ => ?_
  · exact traces_drop.bind fun _ _ => traces_any.bind fun _ _ =>
      traces_rawBlock.bind fun _ _ => traces_newNode
  · exact traces_any.bind fun _ _ => traces_rawBlock.bind fun _ _ => traces_newNode

/-! ## Productions with statements inside -/

section Productions

variable {inner : Composer → Parse Draft} (h : Traces template total anyResult inner)
include h

theorem traces_statementsWith {stop : TokenKind} (fuel : Nat) :
    Traces template total anyResult fun other =>
      statementsWith (template.composing other) (inner other) stop fuel := by
  induction fuel with
  | zero => exact traces_exhausted
  | succ fuel ih =>
      refine traces_peek.bind fun token _ => .ite (fun _ => traces_any) fun _ =>
        .ite (fun _ => ?_) fun _ => ?_
      · exact traces_drop.bind fun _ _ => ih
      · exact h.bind fun _ _ => ih.bind fun _ _ => traces_any

theorem traces_statements {stop : TokenKind} :
    Traces template total anyResult fun other =>
      statements (template.composing other) (inner other) stop :=
  traces_tokenBound.bind fun fuel _ => traces_statementsWith h fuel

theorem traces_indentedBlock :
    Traces template total anyResult fun other =>
      indentedBlock (template.composing other) (inner other) :=
  (traces_expect _).bind fun _ _ => (traces_statements h).bind fun _ _ =>
    (traces_expect _).discard.bind fun _ _ => traces_newBlock

theorem traces_armBody :
    Traces template total anyResult fun other =>
      armBody (template.composing other) (inner other) := by
  refine traces_peek.bind fun token _ => .ite (fun _ => ?_) fun _ => traces_indentedBlock h
  exact traces_drop.bind fun _ _ => h.bind fun _ _ => traces_newBlock

theorem traces_caseStatement :
    Traces template total anyResult fun other =>
      caseStatement (template.composing other) (inner other) :=
  (traces_expect _).bind fun _ _ => (traces_indentedBlock h).bind fun _ _ => traces_newNode

theorem traces_whenStatement :
    Traces template total anyResult fun other =>
      whenStatement (template.composing other) (inner other) :=
  (traces_expect _).bind fun _ _ => (traces_armBody h).bind fun _ _ => traces_newNode

theorem traces_defaultStatement :
    Traces template total anyResult fun other =>
      defaultStatement (template.composing other) (inner other) :=
  (traces_expect _).bind fun _ _ => (traces_armBody h).bind fun _ _ => traces_newNode

theorem traces_codeStatement :
    Traces template total anyResult fun other =>
      codeStatement (template.composing other) (inner other) := by
  refine (traces_expect _).bind fun token _ => traces_tokenBound.bind fun fuel _ => ?_
  refine (traces_newlinesFrom fuel 0).bind fun breaks _ => (traces_peekAt breaks).bind
    fun after _ => .ite (fun _ => ?_) fun _ => traces_newNode
  exact (traces_skip breaks).bind fun _ _ => (traces_indentedBlock h).bind fun _ _ =>
    traces_newNode

theorem traces_eachStatement :
    Traces template total anyResult fun other =>
      eachStatement (template.composing other) (inner other) := by
  refine (traces_expect _).bind fun token _ => (traces_indentedBlock h).bind fun body _ => ?_
  refine traces_peek.bind fun after _ => .ite (fun _ => ?_) fun _ => traces_newNode
  exact traces_drop.bind fun _ _ => (traces_indentedBlock h).bind fun _ _ => traces_newNode

theorem traces_commentStatement :
    Traces template total anyResult fun other =>
      commentStatement (template.composing other) (inner other) := by
  refine (traces_expect _).bind fun token _ => (traces_isAt _).bind fun found _ => ?_
  exact .ite (fun _ => (traces_indentedBlock h).bind fun _ _ => traces_newNode)
    fun _ => traces_newNode

/-! ## Elements -/

omit h in
theorem traces_readAttributesWith (fuel : Nat) : ∀ {classes : List String} {element : Element},
    Traces template total anyResult fun other =>
      readAttributesWith (template.composing other) fuel classes element := by
  induction fuel with
  | zero => exact traces_exhausted
  | succ fuel ih =>
      intro classes element
      refine traces_peek.bind fun token _ => ?_
      cases token.kind with
      | idName => exact traces_drop.bind fun _ _ => ih
      | className => exact traces_drop.bind fun _ _ => ih
      | attrs => exact traces_drop.bind fun _ _ => ih
      | _ => exact traces_any

omit h in
theorem traces_takeDot :
    Traces template total anyResult fun other => takeDot (template.composing other) :=
  traces_peek.bind fun _ _ => .ite
    (fun _ => traces_drop.bind fun _ _ => traces_any) fun _ => traces_any

theorem traces_readLineContent {opened : OpenElement} :
    Traces template total anyResult fun other =>
      readLineContent (template.composing other) (inner other) opened := by
  refine traces_peek.bind fun token _ => ?_
  cases token.kind with
  | text => exact traces_textLine.bind fun _ _ => traces_any
  | code => exact (traces_codeStatement h).bind fun _ _ => traces_any
  | colon =>
      exact traces_drop.bind fun _ _ => h.bind fun _ _ => traces_newBlock.bind fun _ _ =>
        traces_any
  | _ => exact traces_any

theorem traces_readBody {opened : OpenElement} :
    Traces template total anyResult fun other =>
      readBody (template.composing other) (inner other) opened := by
  refine (traces_isAt _).bind fun _ _ => .ite
    (fun _ => .ite (fun _ => ?_) fun _ => ?_) fun _ => traces_any
  · exact traces_rawBlock.bind fun _ _ => traces_any
  · exact (traces_indentedBlock h).bind fun _ _ => traces_any

theorem traces_readElement {element : Element} :
    Traces template total anyResult fun other =>
      readElement (template.composing other) (inner other) element := by
  refine traces_newBlock.bind fun body _ => ?_
  refine Traces.bind (traces_tokenBound.bind fun fuel _ => traces_readAttributesWith fuel)
    fun element _ => traces_takeDot.bind fun dot _ => ?_
  exact (traces_readLineContent h).bind fun opened _ => traces_skipNewlines.bind fun _ _ =>
    traces_readBody h

theorem traces_tagStatement :
    Traces template total anyResult fun other =>
      tagStatement (template.composing other) (inner other) :=
  (traces_expect _).bind fun _ _ => (traces_readElement h).bind fun _ _ => traces_newNode

theorem traces_interpolatedStatement :
    Traces template total anyResult fun other =>
      interpolatedStatement (template.composing other) (inner other) :=
  (traces_expect _).bind fun _ _ => (traces_readElement h).bind fun _ _ => traces_newNode

theorem traces_callStatement :
    Traces template total anyResult fun other =>
      callStatement (template.composing other) (inner other) :=
  (traces_expect _).bind fun _ _ => (traces_readElement h).bind fun _ _ => traces_newNode

/-- The tokens that a shorthand puts in are on the line of its own. -/
theorem traces_shorthandStatement :
    Traces template total anyResult fun other =>
      shorthandStatement (template.composing other) (inner other) := by
  refine traces_advance.bind fun token hline => Traces.bind (traces_defer ?_) fun _ _ => h
  intro other hother
  simp only [List.mem_cons, List.not_mem_nil, or_false] at hother
  rcases hother with rfl | rfl
  · exact hline
  · exact hline

/-! ## Composition -/

theorem traces_namedContent {line : Int} :
    Traces template total anyResult fun other =>
      namedContent (template.composing other) (inner other) line :=
  (traces_isAt _).bind fun _ _ => .ite (fun _ => traces_indentedBlock h)
    fun _ => traces_newNode.bind fun _ _ => traces_newBlock

theorem traces_blockStatement :
    Traces template total anyResult fun other =>
      blockStatement (template.composing other) (inner other) := by
  refine (traces_expect _).bind fun token _ => (traces_namedContent h).bind fun content _ => ?_
  dsimp only [Template.composing]
  exact (traces_calm calm_defineBlock).bind fun _ _ => traces_any

theorem traces_mixinStatement :
    Traces template total anyResult fun other =>
      mixinStatement (template.composing other) (inner other) := by
  refine (traces_expect _).bind fun token _ => (traces_isAt _).bind fun found _ =>
    .ite (fun _ => ?_) fun _ => traces_newNode
  exact (traces_indentedBlock h).bind fun _ _ => traces_newNode.bind fun _ _ =>
    (traces_calm calm_modifyAssembly).bind fun _ _ => traces_any

omit h in
/-- Behind the check, the path does not lead back. -/
theorem traces_checkCycle {path : String} {line : Int} (hline : Lexer.OnLines total line) :
    Traces template total (fun _ => path ∉ template.lineage) fun other =>
      checkCycle (template.composing other) path line := by
  have hcheck : Traces template total (fun _ => path ∉ template.lineage) fun other =>
      if template.lineage.contains path then fail (template.composing other) (.cycle path) line
      else pure () := by
    refine .ite (fun _ => traces_fail hline) fun hcontains => traces_pure ?_
    simpa using hcontains
  exact hcheck

omit h in
/-- A failed load is a fault of the template that asks for it. -/
theorem traces_load {path : String} {line : Int} (hline : Lexer.OnLines total line) :
    Traces template total (fun text => template.config.activeLoader.load path = .ok text)
      fun other => load (template.composing other) path line := by
  unfold load
  simp only [Template.composing_config]
  cases hload : template.config.activeLoader.load path with
  | ok text => exact traces_pure rfl
  | error fault => exact traces_fail hline

omit h in
theorem traces_extendsStatement :
    Traces template total anyResult fun other => extendsStatement (template.composing other) := by
  refine (traces_expect _).bind fun token hline => ?_
  simp only [Template.composing_filename, Template.composing_config]
  cases hfilename : template.filename with
  | none => exact traces_fail hline
  | some filename =>
      refine (traces_calm calm_get).bind fun progress _ => .ite
        (fun _ => traces_fail_bind hline) fun _ => ?_
      refine (traces_checkCycle hline).bind fun _ _ => (traces_calm calm_tell).bind fun _ _ =>
        (traces_load hline).bind fun text _ => ?_
      exact Traces.bind (traces_modify fun _ hspans => hspans) fun _ _ => traces_newNode

omit h in
theorem traces_includeLiteral {filename path : String} {line : Int}
    (hline : Lexer.OnLines total line) :
    Traces template total anyResult fun other =>
      includeLiteral (template.composing other) filename path line :=
  (traces_calm calm_tell).bind fun _ _ => (traces_load hline).bind fun _ _ =>
    traces_peek.bind fun _ hnext => .ite (fun _ => traces_fail_bind hnext)
      fun _ => traces_newNode

omit h in
theorem composeInclude_of_ok {child : Source} {progress : Progress} {composed : Composed}
    {final : Assembly}
    (hcompose : template.compose child progress.assembly.copied = .ok composed final) :
    assemble (composeInclude template child) progress
      = .ok composed
        { progress with assembly := { final with registry := progress.assembly.registry } } := by
  have hrun : composeInclude template child progress.assembly
      = .ok composed { final with registry := progress.assembly.registry } := by
    show EStateM.bind (template.compose child) _ progress.assembly.copied = _
    rw [EStateM.bind, hcompose]
    rfl
  unfold assemble
  rw [hrun]

omit h in
theorem composeInclude_of_error {child : Source} {progress : Progress} {fault : Fault}
    {final : Assembly}
    (hcompose : template.compose child progress.assembly.copied = .error fault final) :
    assemble (composeInclude template child) progress
      = .error fault { progress with assembly := final } := by
  have hrun : composeInclude template child progress.assembly = .error fault final := by
    show EStateM.bind (template.compose child) _ progress.assembly.copied = _
    rw [EStateM.bind, hcompose]
  unfold assemble
  rw [hrun]

omit h in
/-- **An include** that succeeds does so whatever the compositions that fail would have given; one
    that fails passes on the fault of the template that is included. -/
theorem traces_composeInclude {child : Source} (hnames : template.Names child) :
    Traces template total anyResult fun other =>
      assemble (composeInclude (template.composing other) child) := by
  intro progress hspans
  cases hcompose : template.compose child progress.assembly.copied with
  | ok composed final =>
      have hends : anyResult composed ∧ Lexer.Spans total { progress with
          assembly := { final with registry := progress.assembly.registry } }.lexer :=
        ⟨trivial, hspans⟩
      exact .answers (fun other hmends => composeInclude_of_ok (hmends _ _ _ _ hcompose)) hends
  | error fault final =>
      exact .passes hnames ⟨fault, final, hcompose⟩ fun other _ fault after hfault =>
        ⟨_, composeInclude_of_error hfault⟩

theorem traces_includeTemplate {filename path : String} {line : Int}
    (hline : Lexer.OnLines total line) (hnormal : Path.normalizeString path = path) :
    Traces template total anyResult fun other =>
      includeTemplate (template.composing other) (inner other) filename path line := by
  refine (traces_checkCycle hline).bind fun _ hfresh => (traces_calm calm_tell).bind fun _ _ =>
    (traces_load hline).bind fun text hload => ?_
  have hnames : template.Names
      { text, filename := some path, lineage := template.lineage } :=
    ⟨rfl, path, rfl, hnormal, hfresh, hload⟩
  refine (traces_composeInclude hnames).bind fun composed _ => ?_
  refine (traces_calm (calm_assemble fun _ => ⟨_, _, rfl⟩)).bind fun root _ =>
    (traces_isAt _).bind fun found _ => .ite (fun _ => ?_) fun _ => traces_any
  exact (traces_calm (calm_assemble fun _ => ⟨_, _, rfl⟩)).bind fun target _ =>
    (traces_indentedBlock h).bind fun content _ =>
      (traces_calm (calm_assemble fun _ => ⟨_, _, rfl⟩)).bind fun _ _ => traces_any

theorem traces_includeStatement :
    Traces template total anyResult fun other =>
      includeStatement (template.composing other) (inner other) := by
  refine (traces_expect _).bind fun token hline => ?_
  simp only [Template.composing_filename]
  cases hfilename : template.filename with
  | none => exact traces_fail hline
  | some filename =>
      -- the extension is the same for every way to compose
      let path := resolvePath template.config.extension filename token.value
      show Traces template total anyResult fun other =>
        if isTemplatePath template.config.extension path
        then includeTemplate (template.composing other) (inner other) filename path token.line
        else includeLiteral (template.composing other) filename path token.line
      refine .ite (fun _ => ?_) fun _ => traces_includeLiteral hline
      exact traces_includeTemplate h hline (normalizeString_resolvePath ..)

end Productions

/-! ## Statements -/

theorem traces_statementWith (fuel : Nat) :
    Traces template total anyResult fun other =>
      statementWith (template.composing other) fuel := by
  induction fuel with
  | zero => exact traces_exhausted
  | succ fuel ih =>
      refine traces_peek.bind fun token hline => ?_
      cases token.kind with
      | tag => exact traces_tagStatement ih
      | mixin => exact traces_mixinStatement ih
      | block => exact traces_blockStatement ih
      | case => exact traces_caseStatement ih
      | when => exact traces_whenStatement ih
      | default => exact traces_defaultStatement ih
      | «extends» => exact traces_extendsStatement
      | «include» => exact traces_includeStatement ih
      | doctype => exact traces_doctypeStatement
      | filter => exact traces_filterStatement
      | comment => exact traces_commentStatement ih
      | text => exact traces_textLine
      | each => exact traces_eachStatement ih
      | code => exact traces_codeStatement ih
      | call => exact traces_callStatement ih
      | interpolation => exact traces_interpolatedStatement ih
      | yield => exact traces_yieldStatement
      | idName => exact traces_shorthandStatement ih
      | className => exact traces_shorthandStatement ih
      | _ => exact traces_fail hline

/-- **Every reading is traced**: it stops for a fault on a line of its own template, or with a
    template that it includes. -/
theorem traces_document :
    Traces template total anyResult fun other => document (template.composing other) :=
  traces_tokenBound.bind fun _ _ => traces_statements (traces_statementWith _)

end Parse

end Stencil
