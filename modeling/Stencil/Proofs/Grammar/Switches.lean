import Stencil.Proofs.Composition.Root
import Stencil.Proofs.Grammar.Alike
import Stencil.Proofs.Grammar.RawBodies
import Stencil.Proofs.Lexer.Tidy

/-! # Switches — when a template goes over to raw lines

    The readers that reach a raw body are given here with the reader of raw
    bodies as a parameter; with `rawBlock` for it they are those of the grammar
    (`documentVia_rawBlock`).  So the states in which a template is switched are
    those in which its outcome depends on that parameter (`SwitchesAt`).

    Every reader keeps the lexer tidy outside of raw bodies (`Tidily`): it is
    read in markup mode, and not further than the first token behind the line
    breaks, and no raw body is open there (`Between`).  At a switch it is ready
    (`SwitchesAt.ready`). -/

namespace Stencil.Parse

open Lexer

/-! ## Readers of a raw body -/

section Via

variable (template : Template) (raw : Parse (Block BlockId Draft)) (statement : Parse Draft)

/-- Reads a filter, given a reader for its raw body. -/
def filterStatementVia : Parse Draft := do
  let token ← expect template .filter
  let after ← peek template
  let attributes ←
    if after.kind == .attrs then
      discard (advance template)
      pure ((attributesOf after).mapValues Attribute.value)
    else pure .empty
  let body ← raw
  newNode token.line (.filter token.value attributes) [body]

/-- Reads the indented body of an element, given a reader for a raw one. -/
def readBodyVia (opened : OpenElement) : Parse OpenElement := do
  if ← isAt template .indent then
    if opened.element.textOnly then
      let body ← raw
      return joinBody opened { body with props := { body.props with textOnly := true } }
    else return joinBody opened (← indentedBlock template statement)
  else return opened

/-- Reads everything that follows the name of an element, given a reader for a raw body. -/
def readElementVia (element : Element) : Parse OpenElement := do
  let body ← newBlock 0
  let element ← readAttributes template element
  let dot ← takeDot template
  let opened ← readLineContent template statement { element, body }
  skipNewlines template
  let element := { opened.element with textOnly := hasRawBody opened.element dot }
  readBodyVia template raw statement { opened with element }

/-- Reads a tag, given a reader for a raw body. -/
def tagStatementVia : Parse Draft := do
  let token ← expect template .tag
  let selfClosing := match token.lexeme with
    | .tag _ selfClosing => selfClosing
    | _ => false
  let opened ← readElementVia template raw statement { name := token.value, selfClosing }
  newNode token.line (.tag opened.element false) [opened.body] opened.code

/-- Reads a tag whose name is an expression, given a reader for a raw body. -/
def interpolatedStatementVia : Parse Draft := do
  let token ← expect template .interpolation
  let opened ← readElementVia template raw statement { name := token.value }
  newNode token.line (.tag opened.element true) [opened.body] opened.code

/-- Reads a mixin call, given a reader for a raw body. -/
def callStatementVia : Parse Draft := do
  let token ← expect template .call
  let opened ← readElementVia template raw statement { name := token.value }
  let body := if opened.body.nodes.isEmpty then [] else [opened.body]
  newNode token.line (.mixin opened.element (argsOf token) true) body opened.code

/-- Reads a statement, given a reader for raw bodies and one for the statements inside it. -/
def statementStepVia : Parse Draft := do
  let token ← peek template
  match token.kind with
  | .tag => tagStatementVia template raw statement
  | .mixin => mixinStatement template statement
  | .block => blockStatement template statement
  | .case => caseStatement template statement
  | .when => whenStatement template statement
  | .default => defaultStatement template statement
  | .extends => extendsStatement template
  | .include => includeStatement template statement
  | .doctype => doctypeStatement template
  | .filter => filterStatementVia template raw
  | .comment => commentStatement template statement
  | .text => textLine template
  | .each => eachStatement template statement
  | .code => codeStatement template statement
  | .call => callStatementVia template raw statement
  | .interpolation => interpolatedStatementVia template raw statement
  | .yield => yieldStatement template
  | .idName => shorthandStatement template statement
  | .className => shorthandStatement template statement
  | kind => fail template (.unexpected kind) token.line

/-- Reads a statement, given a reader for raw bodies. -/
def statementVia : Nat → Parse Draft
  | 0 => throw ⟨.exhausted, {}⟩
  | fuel + 1 => statementStepVia template raw (statementVia fuel)

/-- Reads the statements of a whole template, given a reader for raw bodies. -/
def documentVia : Parse (List Draft) := do
  let bound ← tokenBound
  statements template (statementVia template raw (2 * bound)) .eos

end Via

section Same

variable {template : Template} {statement : Parse Draft}

theorem statementStepVia_rawBlock :
    statementStepVia template (rawBlock template) statement = statementStep template statement :=
  rfl

theorem statementVia_rawBlock (fuel : Nat) :
    statementVia template (rawBlock template) fuel = statementWith template fuel := by
  induction fuel with
  | zero => rfl
  | succ fuel ih => rw [statementVia, ih, statementStepVia_rawBlock, statementWith]

/-- **With the reader of raw bodies** these are the readers of the grammar. -/
theorem documentVia_rawBlock : documentVia template (rawBlock template) = document template := by
  unfold documentVia document
  simp only [statementVia_rawBlock]

end Same

/-! ## States between raw bodies -/

variable {α β : Type} {template : Template} {raw raw' : Parse (Block BlockId Draft)}

/-- No raw body is open, and the lexer is as it should be. -/
def Between (pre : Lexer → Prop) (progress : Progress) : Prop :=
  progress.rawBase = none ∧ pre progress.lexer

theorem Between.imp {pre weak : Lexer → Prop} (h : ∀ lexer, pre lexer → weak lexer)
    (progress : Progress) (hbetween : Between pre progress) : Between weak progress :=
  ⟨hbetween.1, h _ hbetween.2⟩

/-- Runs that succeed leave the lexer as it was, and open no raw body. -/
def Still (reader : Parse α) : Prop :=
  ∀ progress result after, reader progress = .ok result after →
    after.lexer = progress.lexer ∧ after.rawBase = progress.rawBase

theorem Calm.still {reader : Parse α} (h : Calm reader) : Still reader := by
  intro progress result after hrun
  obtain ⟨_, _, hread, hlexer, hbase, -⟩ := h progress
  cases hread.symm.trans hrun
  exact ⟨hlexer, hbase⟩

theorem still_assemble {action : Assemble α} : Still (assemble action) := by
  intro progress result after hrun
  unfold assemble at hrun
  cases haction : action progress.assembly with
  | ok value assembly =>
      rw [haction] at hrun
      cases hrun
      exact ⟨rfl, rfl⟩
  | error fault assembly =>
      rw [haction] at hrun
      cases hrun

/-- A change of the state apart from the lexer and the raw bodies that are open. -/
theorem still_modify {f : Progress → Progress}
    (h : ∀ progress, (f progress).lexer = progress.lexer
      ∧ (f progress).rawBase = progress.rawBase) :
    Still (modify f : Parse PUnit) := by
  rintro progress _ _ ⟨⟩
  exact h progress

/-! ## Readers that keep the lexer tidy -/

/-- Readers that do the same between raw bodies with a tidy lexer, and leave a tidy one. -/
abbrev Tidily (reader other : Parse α) : Prop :=
  Alike (Between (Tidy [])) reader other fun _ => Between (Tidy [])

section Rules

variable {reader reader' other other' : Parse α} {next next' : α → Parse β}

theorem Still.alike {pre : Lexer → Prop} (h : Still reader) :
    Alike (Between pre) reader reader fun _ => Between pre := by
  intro progress hpre
  refine ⟨rfl, fun result after hrun => ?_⟩
  obtain ⟨hlexer, hbase⟩ := h _ _ _ hrun
  exact ⟨hbase.trans hpre.1, hlexer ▸ hpre.2⟩

theorem Still.tidily (h : Still reader) : Tidily reader reader := h.alike

theorem Calm.tidily (h : Calm reader) : Tidily reader reader := h.still.tidily

theorem tidily_pure {result : α} : Tidily (pure result : Parse α) (pure result) :=
  alike_pure fun _ => id

theorem Tidily.bind (h : Tidily reader other)
    (hnext : ∀ result, Tidily (next result) (next' result)) :
    Tidily (reader >>= next) (other >>= next') :=
  Alike.bind h hnext

theorem Tidily.ite {condition : Prop} [Decidable condition] (h : Tidily reader other)
    (hother : Tidily reader' other') :
    Tidily (if condition then reader else reader') (if condition then other else other') :=
  Alike.ite (fun _ => h) fun _ => hother

theorem tidily_fail {cause : Cause} {line : Int} :
    Tidily (fail template cause line : Parse α) (fail template cause line) :=
  alike_throw

/-- More may be known of the lexer. -/
theorem Tidily.forget {pre : Lexer → Prop} (h : Tidily reader other) :
    Alike (Between fun lexer => lexer.Tidy [] ∧ pre lexer) reader other
      fun _ => Between (Tidy []) :=
  h.imp (Between.imp fun _ => And.left) fun _ _ => id

/-- After a failure nothing is read. -/
theorem tidily_fail_bind {cause : Cause} {line : Int} :
    Tidily (fail template cause line >>= next) (fail template cause line >>= next') :=
  fun _ _ => ⟨rfl, nofun⟩

theorem Tidily.discard (h : Tidily reader other) :
    Tidily (Functor.discard reader) (Functor.discard other) := by
  rw [← bind_pure (Functor.discard reader), ← bind_pure (Functor.discard other), discard_bind,
    discard_bind]
  exact h.bind fun _ => tidily_pure

end Rules

/-! ## Tokens -/

section Tokens

variable {part : Token} {deferred : List Token}

/-- An action on the lexer opens no raw body. -/
theorem alike_onLexer {action : Lexer → Outcome α} {pre : Lexer → Prop} {post : α → Lexer → Prop}
    (h : ∀ lexer result after, pre lexer → action lexer = (.ok result, after) →
      post result after) :
    Alike (Between pre) (onLexer template action) (onLexer template action)
      fun result => Between (post result) :=
  fun _ hpre => ⟨rfl, fun _ _ hrun =>
    ⟨(onLexer_rawBase hrun).trans hpre.1, h _ _ _ hpre.2 (onLexer_eq_ok hrun)⟩⟩

/-- A lexer that was looked at up to an offset: the tokens before it are line breaks. -/
def LooksPast (offset : Nat) (lexer : Lexer) : Prop :=
  lexer.Tidy [] ∧ offset ≤ lexer.stash.length
    ∧ (offset = lexer.stash.length → ∀ t ∈ lexer.stash, t.kind = .newline)

/-- A look behind line breaks. -/
theorem alike_peekAt (offset : Nat) :
    Alike (Between (LooksPast offset)) (peekAt template offset) (peekAt template offset)
      fun token => Between fun lexer => lexer.Tidy [] ∧ lexer.stash[offset]? = some token :=
  alike_onLexer fun _ _ _ ⟨htidy, hle, hbreaks⟩ => htidy.peekAt hle hbreaks

/-- Nothing has to be known to look at the next token. -/
theorem looksPast_zero (lexer : Lexer) (h : lexer.Tidy []) : LooksPast 0 lexer := by
  refine ⟨h, Nat.zero_le _, fun hempty => ?_⟩
  rw [List.length_eq_zero_iff.mp hempty.symm]
  exact nofun

/-- A look at the next token. -/
theorem alike_peek :
    Alike (Between (Tidy [])) (peek template) (peek template)
      fun token => Between fun lexer => lexer.Tidy [] ∧ lexer.stash.head? = some token :=
  (alike_peekAt 0).imp (Between.imp looksPast_zero) fun _ =>
    Between.imp fun _ ⟨htidy, htoken⟩ => ⟨htidy, List.head?_eq_getElem? ▸ htoken⟩

theorem tidily_peek : Tidily (peek template) (peek template) :=
  alike_peek.imp (fun _ => id) fun _ => Between.imp fun _ => And.left

/-- A step; behind a token that is no line break nothing else was looked at. -/
theorem alike_advance :
    Alike (Between (Tidy [])) (advance template) (advance template)
      fun token => Between fun lexer => lexer.Tidy []
        ∧ (token.kind ≠ .newline → lexer.stash = [] ∧ Behind token lexer) :=
  alike_onLexer fun _ _ _ htidy => htidy.advance

theorem tidily_advance : Tidily (advance template) (advance template) :=
  alike_advance.imp (fun _ => id) fun _ => Between.imp fun _ => And.left

theorem tidily_drop : Tidily (discard (advance template)) (discard (advance template)) :=
  tidily_advance.discard

theorem tidily_isAt (kind : TokenKind) : Tidily (isAt template kind) (isAt template kind) :=
  tidily_peek.bind fun _ => tidily_pure

theorem tidily_expect (kind : TokenKind) : Tidily (expect template kind) (expect template kind) :=
  tidily_peek.bind fun _ => .ite tidily_advance tidily_fail

theorem tidily_tokenBound : Tidily tokenBound tokenBound :=
  calm_get.tidily.bind fun _ => tidily_pure

theorem tidily_skip (count : Nat) : Tidily (skip template count) (skip template count) := by
  induction count with
  | zero => exact tidily_pure
  | succ count ih => exact tidily_drop.bind fun _ => ih

theorem tidily_skipNewlinesWith (fuel : Nat) :
    Tidily (skipNewlinesWith template fuel) (skipNewlinesWith template fuel) := by
  induction fuel with
  | zero => exact alike_throw
  | succ fuel ih =>
      exact (tidily_isAt _).bind fun _ => .ite (tidily_drop.bind fun _ => ih) tidily_pure

theorem tidily_skipNewlines : Tidily (skipNewlines template) (skipNewlines template) :=
  tidily_tokenBound.bind tidily_skipNewlinesWith

/-- A line break that was looked at may be looked past. -/
theorem LooksPast.succ {offset : Nat} {lexer : Lexer} {token : Token} (h : lexer.Tidy [])
    (htoken : lexer.stash[offset]? = some token) (hkind : token.kind = .newline) :
    LooksPast (offset + 1) lexer := by
  obtain ⟨hlt, hget⟩ := List.getElem?_eq_some_iff.mp htoken
  refine ⟨h, hlt, fun hlast t ht => ?_⟩
  rcases List.eq_nil_or_concat lexer.stash with hnil | ⟨others, last, hstash⟩
  · rw [hnil] at ht
    exact nomatch ht
  · have hbreaks := h.breaks
    rw [hstash, List.concat_eq_append] at ht htoken hlast
    rw [hstash, List.concat_eq_append, List.dropLast_concat] at hbreaks
    rw [List.length_append, List.length_singleton] at hlast
    obtain rfl : offset = others.length := Nat.succ.inj hlast
    obtain rfl : last = token := by simpa using htoken
    rcases List.mem_append.mp ht with ht | ht
    · exact hbreaks t ht
    · exact List.mem_singleton.mp ht ▸ hkind

/-- Line breaks are looked at one after another, and all of them stay where they are. -/
theorem alike_newlinesFrom (fuel : Nat) : ∀ offset : Nat,
    Alike (Between (LooksPast offset)) (newlinesFrom template fuel offset)
      (newlinesFrom template fuel offset) fun breaks => Between (LooksPast breaks) := by
  induction fuel with
  | zero => exact fun _ => alike_throw
  | succ fuel ih =>
      intro offset
      refine (alike_peekAt offset).bind fun token => .ite (fun hbreak => ?_) fun hbreak => ?_
      · refine (ih (offset + 1)).imp (Between.imp fun lexer hlexer => ?_) fun _ _ => id
        exact .succ hlexer.1 hlexer.2 (beq_iff_eq.mp hbreak)
      · refine alike_pure (Between.imp fun lexer ⟨htidy, htoken⟩ => ?_)
        obtain ⟨hlt, -⟩ := List.getElem?_eq_some_iff.mp htoken
        exact ⟨htidy, Nat.le_of_lt hlt, fun hlast => absurd hlast (Nat.ne_of_lt hlt)⟩

/-- The token that was looked at is taken. -/
theorem alike_take {token : Token} :
    Alike (Between fun lexer => lexer.Tidy [] ∧ lexer.stash.head? = some token)
      (advance template) (advance template) fun taken progress => taken = token
        ∧ Between (fun lexer => lexer.Tidy []
          ∧ (token.kind ≠ .newline → lexer.stash = [] ∧ Behind token lexer)) progress := by
  refine fun progress ⟨hbase, htidy, hhead⟩ => ⟨rfl, fun taken after hrun => ?_⟩
  have hadvance := lexer_advance_of_ok hrun
  obtain rfl := htidy.advance_head hhead hadvance
  exact ⟨rfl, (onLexer_rawBase hrun).trans hbase, htidy.advance hadvance⟩

/-- An expected token that is no line break is taken with nothing looked at behind it. -/
theorem alike_expect (kind : TokenKind) (hkind : kind ≠ .newline) :
    Alike (Between (Tidy [])) (expect template kind) (expect template kind)
      fun _ => Between fun lexer => lexer.Tidy [] ∧ lexer.stash = [] := by
  refine alike_peek.bind fun token => .ite (fun hsame => ?_) fun _ => alike_throw
  refine alike_take.imp (fun _ => id) fun taken progress ⟨_, hbase, htidy, hstash⟩ =>
    ⟨hbase, htidy, ?_⟩
  exact (hstash (beq_iff_eq.mp hsame ▸ hkind)).1

/-- A look when nothing was looked at. -/
theorem alike_peek_empty :
    Alike (Between fun lexer => lexer.Tidy [] ∧ lexer.stash = []) (peek template)
      (peek template) fun token => Between fun lexer => lexer.Tidy [] ∧ lexer.stash = [token] := by
  refine fun progress ⟨hbase, htidy, hstash⟩ => ⟨rfl, fun token after hrun => ?_⟩
  have hholding := (peek_eq_ok hrun ⟨htidy.deferred, hstash⟩).2
  obtain ⟨hafter, htidy, -⟩ := (alike_peek progress ⟨hbase, htidy⟩).2 token after hrun
  exact ⟨hafter, htidy, hholding.stash⟩

theorem alike_peek_deferred :
    Alike (Between (Tidy (part :: deferred))) (peek template) (peek template)
      fun token progress => token = part ∧ Between (Tidy (part :: deferred)) progress := by
  refine fun progress ⟨hbase, htidy⟩ => ⟨rfl, fun token after hrun => ?_⟩
  obtain ⟨htoken, hafter⟩ := htidy.peek_deferred (lexer_peek_of_ok hrun)
  exact ⟨htoken, (peek_rawBase hrun).trans hbase, hafter ▸ htidy⟩

theorem alike_advance_deferred :
    Alike (Between (Tidy (part :: deferred))) (advance template) (advance template)
      fun _ => Between (Tidy deferred) :=
  alike_onLexer fun _ _ _ htidy hadvance => (htidy.advance_deferred hadvance).2

theorem alike_expect_deferred (kind : TokenKind) :
    Alike (Between (Tidy (part :: deferred))) (expect template kind) (expect template kind)
      fun _ => Between (Tidy deferred) := by
  refine alike_peek_deferred.bind fun token => .of_and fun _ => ?_
  exact .ite (fun _ => alike_advance_deferred) fun _ => alike_throw

/-- Whether the next token is of a kind; if so, the lexer stands behind it. -/
theorem alike_isAt (kind : TokenKind) (hkind : kind ≠ .newline) :
    Alike (Between (Tidy [])) (isAt template kind) (isAt template kind)
      fun found => Between fun lexer => lexer.Tidy [] ∧ (found = true → Ready lexer) := by
  refine alike_peek.bind fun token => alike_pure (Between.imp fun lexer ⟨htidy, hhead⟩ =>
    ⟨htidy, fun hfound => ?_⟩)
  have hne : token.kind ≠ .newline := beq_iff_eq.mp hfound ▸ hkind
  exact htidy.ready (htidy.stash_of_head hhead hne).1

end Tokens

/-! ## Productions -/

theorem tidily_newNode {line : Int} {kind : Kind BlockId} {blocks : List (Block BlockId Draft)}
    {code : Option Draft} :
    Tidily (newNode line kind blocks code) (newNode line kind blocks code) :=
  calm_newNode.tidily

theorem tidily_newBlock {line : Int} {nodes : List Draft} {props : BlockProps} :
    Tidily (newBlock line nodes props) (newBlock line nodes props) :=
  calm_newBlock.tidily

theorem tidily_textLine : Tidily (textLine template) (textLine template) :=
  (tidily_expect _).bind fun _ => tidily_newNode

theorem tidily_doctypeStatement :
    Tidily (doctypeStatement template) (doctypeStatement template) :=
  (tidily_expect _).bind fun _ => tidily_newNode

theorem tidily_yieldStatement : Tidily (yieldStatement template) (yieldStatement template) :=
  (tidily_expect _).bind fun _ => tidily_newBlock.bind fun _ => tidily_pure

theorem tidily_checkCycle {path : String} {line : Int} :
    Tidily (checkCycle template path line) (checkCycle template path line) :=
  .ite tidily_fail tidily_pure

theorem tidily_load {path : String} {line : Int} :
    Tidily (load template path line) (load template path line) := by
  unfold load
  split
  · exact tidily_pure
  · exact tidily_fail

theorem tidily_includeLiteral {filename path : String} {line : Int} :
    Tidily (includeLiteral template filename path line)
      (includeLiteral template filename path line) :=
  calm_tell.tidily.bind fun _ => tidily_load.bind fun _ => tidily_peek.bind fun _ =>
    .ite tidily_fail_bind tidily_newNode

theorem tidily_extendsStatement :
    Tidily (extendsStatement template) (extendsStatement template) := by
  refine (tidily_expect _).bind fun token => ?_
  split
  · exact tidily_fail
  · refine calm_get.tidily.bind fun progress => .ite tidily_fail_bind ?_
    refine tidily_checkCycle.bind fun _ => calm_tell.tidily.bind fun _ => ?_
    refine tidily_load.bind fun _ => ?_
    refine Tidily.bind (Still.tidily ?_) fun _ => tidily_newNode
    exact still_modify fun _ => ⟨rfl, rfl⟩

/-! ### Statements inside -/

section Inner

variable {inner inner' : Parse Draft} (h : Tidily inner inner')
include h

theorem tidily_statementsWith {stop : TokenKind} (fuel : Nat) :
    Tidily (statementsWith template inner stop fuel)
      (statementsWith template inner' stop fuel) := by
  induction fuel with
  | zero => exact alike_throw
  | succ fuel ih =>
      refine tidily_peek.bind fun token => .ite tidily_pure (.ite ?_ ?_)
      · exact tidily_drop.bind fun _ => ih
      · exact Tidily.bind h fun _ => ih.bind fun _ => tidily_pure

theorem tidily_statements {stop : TokenKind} :
    Tidily (statements template inner stop) (statements template inner' stop) :=
  tidily_tokenBound.bind fun fuel => tidily_statementsWith h fuel

theorem tidily_indentedBlock :
    Tidily (indentedBlock template inner) (indentedBlock template inner') :=
  (tidily_expect _).bind fun _ => (tidily_statements h).bind fun _ =>
    (tidily_expect _).discard.bind fun _ => tidily_newBlock

theorem tidily_armBody : Tidily (armBody template inner) (armBody template inner') := by
  refine tidily_peek.bind fun token => .ite ?_ (tidily_indentedBlock h)
  exact tidily_drop.bind fun _ => Tidily.bind h fun _ => tidily_newBlock

theorem tidily_caseStatement :
    Tidily (caseStatement template inner) (caseStatement template inner') :=
  (tidily_expect _).bind fun _ => (tidily_indentedBlock h).bind fun _ => tidily_newNode

theorem tidily_whenStatement :
    Tidily (whenStatement template inner) (whenStatement template inner') :=
  (tidily_expect _).bind fun _ => (tidily_armBody h).bind fun _ => tidily_newNode

theorem tidily_defaultStatement :
    Tidily (defaultStatement template inner) (defaultStatement template inner') :=
  (tidily_expect _).bind fun _ => (tidily_armBody h).bind fun _ => tidily_newNode

/-- Code looks behind line breaks, and takes them if it has a body. -/
theorem tidily_codeStatement :
    Tidily (codeStatement template inner) (codeStatement template inner') := by
  refine (tidily_expect _).bind fun token => tidily_tokenBound.bind fun fuel => ?_
  refine Alike.bind ((alike_newlinesFrom fuel 0).imp (Between.imp looksPast_zero) fun _ _ => id)
    fun breaks => ?_
  refine (alike_peekAt breaks).bind fun after => Tidily.forget ?_
  refine Tidily.ite ?_ tidily_newNode
  exact (tidily_skip breaks).bind fun _ => (tidily_indentedBlock h).bind fun _ => tidily_newNode

theorem tidily_eachStatement :
    Tidily (eachStatement template inner) (eachStatement template inner') := by
  refine (tidily_expect _).bind fun token => (tidily_indentedBlock h).bind fun body => ?_
  refine tidily_peek.bind fun after => .ite ?_ tidily_newNode
  exact tidily_drop.bind fun _ => (tidily_indentedBlock h).bind fun _ => tidily_newNode

theorem tidily_commentStatement :
    Tidily (commentStatement template inner) (commentStatement template inner') := by
  refine (tidily_expect _).bind fun token => (tidily_isAt _).bind fun found => ?_
  exact .ite ((tidily_indentedBlock h).bind fun _ => tidily_newNode) tidily_newNode

theorem tidily_namedContent {line : Int} :
    Tidily (namedContent template inner line) (namedContent template inner' line) :=
  (tidily_isAt _).bind fun _ => .ite (tidily_indentedBlock h)
    (tidily_newNode.bind fun _ => tidily_newBlock)

theorem tidily_blockStatement :
    Tidily (blockStatement template inner) (blockStatement template inner') :=
  (tidily_expect _).bind fun _ => (tidily_namedContent h).bind fun _ =>
    still_assemble.tidily.bind fun _ => tidily_pure

theorem tidily_mixinStatement :
    Tidily (mixinStatement template inner) (mixinStatement template inner') := by
  refine (tidily_expect _).bind fun token => (tidily_isAt _).bind fun found =>
    .ite ?_ tidily_newNode
  exact (tidily_indentedBlock h).bind fun _ => tidily_newNode.bind fun _ =>
    calm_modifyAssembly.tidily.bind fun _ => tidily_pure

theorem tidily_includeTemplate {filename path : String} {line : Int} :
    Tidily (includeTemplate template inner filename path line)
      (includeTemplate template inner' filename path line) := by
  refine tidily_checkCycle.bind fun _ => calm_tell.tidily.bind fun _ => ?_
  refine tidily_load.bind fun text => ?_
  refine still_assemble.tidily.bind fun composed => still_assemble.tidily.bind fun root => ?_
  refine (tidily_isAt _).bind fun found => .ite ?_ tidily_pure
  exact still_assemble.tidily.bind fun target => (tidily_indentedBlock h).bind fun content =>
    still_assemble.tidily.bind fun _ => tidily_pure

theorem tidily_includeStatement :
    Tidily (includeStatement template inner) (includeStatement template inner') := by
  refine (tidily_expect _).bind fun token => ?_
  split
  · exact tidily_fail
  · exact .ite (tidily_includeTemplate h) tidily_includeLiteral

/-! ### Elements -/

omit h in
theorem tidily_readAttributesWith (fuel : Nat) : ∀ {classes : List String} {element : Element},
    Tidily (readAttributesWith template fuel classes element)
      (readAttributesWith template fuel classes element) := by
  induction fuel with
  | zero => exact alike_throw
  | succ fuel ih =>
      intro classes element
      refine tidily_peek.bind fun token => ?_
      cases token.kind with
      | idName => exact tidily_drop.bind fun _ => ih
      | className => exact tidily_drop.bind fun _ => ih
      | attrs => exact tidily_drop.bind fun _ => ih
      | _ => exact tidily_pure

omit h in
theorem tidily_takeDot : Tidily (takeDot template) (takeDot template) :=
  tidily_peek.bind fun _ => .ite (tidily_drop.bind fun _ => tidily_pure) tidily_pure

theorem tidily_readLineContent {opened : OpenElement} :
    Tidily (readLineContent template inner opened) (readLineContent template inner' opened) := by
  refine tidily_peek.bind fun token => ?_
  cases token.kind with
  | text => exact tidily_textLine.bind fun _ => tidily_pure
  | code => exact (tidily_codeStatement h).bind fun _ => tidily_pure
  | colon =>
      exact tidily_drop.bind fun _ => Tidily.bind h fun _ =>
        tidily_newBlock.bind fun _ => tidily_pure
  | _ => exact tidily_pure

end Inner

/-! ### Shorthands -/

/-- A part of a shorthand that waits is taken with the attributes. -/
theorem alike_readAttributes {deferred : List Token} (hwaiting : Waiting deferred)
    {element : Element} :
    Alike (Between (Tidy deferred)) (readAttributes template element)
      (readAttributes template element) fun _ => Between (Tidy []) := by
  have hbound : Alike (Between (Tidy deferred)) tokenBound tokenBound
      fun _ => Between (Tidy deferred) :=
    calm_get.still.alike.bind fun _ => alike_pure fun _ => id
  refine hbound.bind fun fuel => ?_
  rcases hwaiting with rfl | ⟨part, rfl, hpart⟩
  · exact tidily_readAttributesWith fuel
  · cases fuel with
    | zero => exact alike_throw
    | succ fuel =>
        refine alike_peek_deferred.bind fun token => .of_and fun hsame => ?_
        subst hsame
        have hdrop : ∀ {next : Unit → Parse Element},
            (∀ result, Tidily (next result) (next result)) →
            Alike (Between (Tidy [token]))
              (discard (advance template) >>= next) (discard (advance template) >>= next)
              fun _ => Between (Tidy []) := by
          intro next hnext
          rw [discard_bind]
          exact alike_advance_deferred.bind fun _ => hnext ()
        rcases hpart with hkind | hkind
        · rw [hkind]
          exact hdrop fun _ => tidily_readAttributesWith fuel
        · rw [hkind]
          exact hdrop fun _ => tidily_readAttributesWith fuel

/-- Readers that take the two tokens of a shorthand. -/
def TidilyShort (reader other : Parse Draft) : Prop :=
  ∀ tag part : Token, tag.kind = .tag → part.kind = .idName ∨ part.kind = .className →
    Alike (Between (Tidy [tag, part])) reader other fun _ => Between (Tidy [])

/-- A shorthand puts two tokens in, and takes them again with the tag that they make. -/
theorem tidily_shorthandStatement {inner inner' : Parse Draft} (h : TidilyShort inner inner')
    {token : Token} (hkind : token.kind = .idName ∨ token.kind = .className) :
    Alike (Between fun lexer => lexer.Tidy [] ∧ lexer.stash.head? = some token)
      (shorthandStatement template inner) (shorthandStatement template inner')
      fun _ => Between (Tidy []) := by
  refine alike_take.bind fun taken => .of_and fun hsame => ?_
  subst hsame
  refine Alike.bind (m := fun _ => Between (Tidy [⟨taken.line, .tag "div" false⟩, taken])) ?_
    fun _ => h _ taken rfl hkind
  refine fun progress ⟨hbase, htidy, _⟩ => ⟨rfl, ?_⟩
  rintro _ _ ⟨⟩
  exact ⟨hbase, (htidy.defer _).defer taken⟩

/-! ### Raw bodies -/

section Raw

variable (hraw : Alike (Between Ready) raw raw' fun _ => Between (Tidy []))
include hraw

/-- **A filter is ready** for its body: it has looked at one token at most, and behind an attribute
    list at none. -/
theorem tidily_filterStatementVia :
    Tidily (filterStatementVia template raw) (filterStatementVia template raw') := by
  refine (alike_expect .filter nofun).bind fun token => alike_peek_empty.bind fun after => ?_
  have hbody : ∀ {attributes : OrderedMap String AttributeValue},
      Alike (Between Ready)
        (do let body ← raw
            newNode token.line (.filter token.value attributes) [body])
        (do let body ← raw'
            newNode token.line (.filter token.value attributes) [body])
        fun _ => Between (Tidy []) := hraw.bind fun _ => tidily_newNode
  refine .ite (fun hattrs => ?_) fun _ => ?_
  · rw [discard_bind, discard_bind]
    have hkind : after.kind = .attrs := beq_iff_eq.mp hattrs
    have htake : Alike (Between fun lexer => lexer.Tidy [] ∧ lexer.stash = [after])
        (advance template) (advance template) fun _ => Between Ready := by
      refine alike_take.imp
        (Between.imp fun lexer ⟨htidy, hstash⟩ => ⟨htidy, by rw [hstash]; rfl⟩) ?_
      intro taken progress ⟨_, hbase, htidy, hbehind⟩
      obtain ⟨hstash, hbehind⟩ := hbehind (by simp [hkind])
      exact ⟨hbase, htidy.ready_of_attrs hstash hbehind hkind⟩
    refine htake.bind fun _ => ?_
    rw [pure_bind, pure_bind]
    exact hbody
  · rw [pure_bind, pure_bind]
    exact hbody.imp (Between.imp fun _ ⟨htidy, hstash⟩ => htidy.ready hstash) fun _ _ => id

variable {inner inner' : Parse Draft} (h : Tidily inner inner')
include h

/-- **An element is ready** for a raw body: it has looked at the indent and at nothing behind it. -/
theorem tidily_readBodyVia {opened : OpenElement} :
    Tidily (readBodyVia template raw inner opened) (readBodyVia template raw' inner' opened) := by
  refine (alike_isAt .indent nofun).bind fun found => .ite (fun hfound => .ite (fun _ => ?_)
    fun _ => ?_) fun _ => tidily_pure.forget
  · exact (hraw.imp (Between.imp fun _ ⟨_, hready⟩ => hready hfound) fun _ _ => id).bind fun _ =>
      tidily_pure
  · exact (tidily_indentedBlock h).forget.bind fun _ => tidily_pure

theorem alike_readElementVia {deferred : List Token} (hwaiting : Waiting deferred)
    {element : Element} :
    Alike (Between (Tidy deferred)) (readElementVia template raw inner element)
      (readElementVia template raw' inner' element) fun _ => Between (Tidy []) := by
  refine calm_newBlock.still.alike.bind fun body => (alike_readAttributes hwaiting).bind
    fun element => ?_
  refine tidily_takeDot.bind fun dot => (tidily_readLineContent h).bind fun opened => ?_
  exact tidily_skipNewlines.bind fun _ => tidily_readBodyVia hraw h

theorem tidily_tagStatementVia :
    Tidily (tagStatementVia template raw inner) (tagStatementVia template raw' inner') :=
  (tidily_expect _).bind fun _ => (alike_readElementVia hraw h (.inl rfl)).bind fun _ =>
    tidily_newNode

theorem tagStatementVia_shorthand :
    TidilyShort (tagStatementVia template raw inner) (tagStatementVia template raw' inner') :=
  fun _ part _ hpart => (alike_expect_deferred _).bind fun _ =>
    (alike_readElementVia hraw h (.inr ⟨part, rfl, hpart⟩)).bind fun _ => tidily_newNode

theorem tidily_interpolatedStatementVia :
    Tidily (interpolatedStatementVia template raw inner)
      (interpolatedStatementVia template raw' inner') :=
  (tidily_expect _).bind fun _ => (alike_readElementVia hraw h (.inl rfl)).bind fun _ =>
    tidily_newNode

theorem tidily_callStatementVia :
    Tidily (callStatementVia template raw inner) (callStatementVia template raw' inner') :=
  (tidily_expect _).bind fun _ => (alike_readElementVia hraw h (.inl rfl)).bind fun _ =>
    tidily_newNode

/-- A statement keeps the lexer tidy, one case for each kind of token that may start it. -/
theorem tidily_statementStepVia (hshort : TidilyShort inner inner') :
    Tidily (statementStepVia template raw inner) (statementStepVia template raw' inner') := by
  refine alike_peek.bind fun token => ?_
  cases hkind : token.kind with
  | tag => exact (tidily_tagStatementVia hraw h).forget
  | mixin => exact (tidily_mixinStatement h).forget
  | block => exact (tidily_blockStatement h).forget
  | case => exact (tidily_caseStatement h).forget
  | when => exact (tidily_whenStatement h).forget
  | default => exact (tidily_defaultStatement h).forget
  | «extends» => exact tidily_extendsStatement.forget
  | «include» => exact (tidily_includeStatement h).forget
  | doctype => exact tidily_doctypeStatement.forget
  | filter => exact (tidily_filterStatementVia hraw).forget
  | comment => exact (tidily_commentStatement h).forget
  | text => exact tidily_textLine.forget
  | each => exact (tidily_eachStatement h).forget
  | code => exact (tidily_codeStatement h).forget
  | call => exact (tidily_callStatementVia hraw h).forget
  | interpolation => exact (tidily_interpolatedStatementVia hraw h).forget
  | yield => exact tidily_yieldStatement.forget
  | idName => exact tidily_shorthandStatement hshort (.inl hkind)
  | className => exact tidily_shorthandStatement hshort (.inr hkind)
  | _ => exact tidily_fail.forget

/-- A shorthand that was put in starts with its tag. -/
theorem statementStepVia_shorthand :
    TidilyShort (statementStepVia template raw inner) (statementStepVia template raw' inner') := by
  intro tag part htag hpart
  refine alike_peek_deferred.bind fun token => .of_and fun hsame => ?_
  subst hsame
  rw [htag]
  exact tagStatementVia_shorthand hraw h token part htag hpart

omit h in
theorem tidily_statementVia (fuel : Nat) :
    Tidily (statementVia template raw fuel) (statementVia template raw' fuel)
      ∧ TidilyShort (statementVia template raw fuel) (statementVia template raw' fuel) := by
  induction fuel with
  | zero => exact ⟨alike_throw, fun _ _ _ _ => alike_throw⟩
  | succ fuel ih =>
      exact ⟨tidily_statementStepVia hraw ih.1 ih.2, statementStepVia_shorthand hraw ih.1⟩

omit h in
/-- **A whole template keeps the lexer tidy** outside of raw bodies, and is read alike with readers
    of raw bodies that agree where the lexer is ready. -/
theorem tidily_documentVia : Tidily (documentVia template raw) (documentVia template raw') :=
  tidily_tokenBound.bind fun _ => tidily_statements (tidily_statementVia hraw _).1

end Raw

end Stencil.Parse
