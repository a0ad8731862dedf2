import Stencil.Proofs.Composition.Root
import Stencil.Proofs.Grammar.Alike
import Stencil.Proofs.Grammar.Ends
import Stencil.Proofs.Path

/-! # Twin templates — reading with another way to compose

    Composing another template is a parameter of reading one.  Only an include
    uses it while a template is read, and the layout that is noted is composed
    after it.  So two templates that differ in nothing but that parameter are
    read alike where it agrees on the includes, and `sound` goes on to hold of
    the layout that is noted (`twins_document`). -/

namespace Stencil

/-- A template that is read with another way to compose those it names. -/
def Template.composing (template : Template) (compose : Source → Assemble Composed) : Template :=
  { template with compose }

namespace Parse

variable {α β : Type} {template : Template} {compose : Source → Assemble Composed}
  {sound : Option Layout → Prop}

/-- Readers that do the same while the layout is sound, and leave a sound one. -/
abbrev Twins (sound : Option Layout → Prop) (reader other : Parse α) : Prop :=
  Alike (fun progress => sound progress.layout) reader other fun _ progress =>
    sound progress.layout

section Rules

variable {reader reader' other other' : Parse α} {next next' : α → Parse β}

theorem twins_pure {result : α} : Twins sound (pure result : Parse α) (pure result) :=
  alike_pure fun _ => id

theorem Twins.bind (h : Twins sound reader other)
    (hnext : ∀ result, Twins sound (next result) (next' result)) :
    Twins sound (reader >>= next) (other >>= next') :=
  Alike.bind h hnext

theorem Twins.ite {condition : Prop} [Decidable condition] (h : Twins sound reader other)
    (hother : Twins sound reader' other') :
    Twins sound (if condition then reader else reader') (if condition then other else other') :=
  Alike.ite (fun _ => h) fun _ => hother

theorem twins_fail {cause : Cause} {line : Int} :
    Twins sound (fail template cause line : Parse α)
      (fail (template.composing compose) cause line) :=
  alike_throw

/-- After a failure nothing is read. -/
theorem twins_fail_bind {cause : Cause} {line : Int} :
    Twins sound (fail template cause line >>= next)
      (fail (template.composing compose) cause line >>= next') :=
  fun _ _ => ⟨rfl, nofun⟩

/-- A reader that succeeds and leaves the layout alone is its own twin. -/
theorem twins_calm (h : Calm reader) : Twins sound reader reader := by
  intro progress hsound
  refine ⟨rfl, fun result after hrun => ?_⟩
  obtain ⟨_, _, hread, -, -, hlayout⟩ := h progress
  cases hread.symm.trans hrun
  rwa [hlayout]

theorem twins_modify {f : Progress → Progress}
    (h : ∀ progress, (f progress).layout = progress.layout) :
    Twins sound (modify f : Parse PUnit) (modify f) := by
  intro progress hsound
  refine ⟨rfl, ?_⟩
  rintro _ _ ⟨⟩
  show sound (f progress).layout
  rwa [h]

theorem Twins.discard (h : Twins sound reader other) :
    Twins sound (Functor.discard reader) (Functor.discard other) := by
  rw [← bind_pure (Functor.discard reader), ← bind_pure (Functor.discard other), discard_bind,
    discard_bind]
  exact h.bind fun _ => twins_pure

end Rules

/-! ## Tokens -/

section Tokens

theorem twins_onLexer {action : Lexer → Lexer.Outcome α} :
    Twins sound (onLexer template action) (onLexer (template.composing compose) action) := by
  intro progress hsound
  refine ⟨rfl, fun result after hrun => ?_⟩
  unfold onLexer at hrun
  rcases haction : action progress.lexer with ⟨fault | value, lexer⟩
  · rw [haction] at hrun
    cases hrun
  · rw [haction] at hrun
    cases hrun
    exact hsound

theorem twins_peekAt (offset : Nat) :
    Twins sound (peekAt template offset) (peekAt (template.composing compose) offset) :=
  twins_onLexer

theorem twins_peek : Twins sound (peek template) (peek (template.composing compose)) :=
  twins_peekAt 0

theorem twins_advance : Twins sound (advance template) (advance (template.composing compose)) :=
  twins_onLexer

theorem twins_drop :
    Twins sound (discard (advance template)) (discard (advance (template.composing compose))) :=
  twins_advance.discard

theorem twins_isAt (kind : TokenKind) :
    Twins sound (isAt template kind) (isAt (template.composing compose) kind) :=
  twins_peek.bind fun _ => twins_pure

theorem twins_expect (kind : TokenKind) :
    Twins sound (expect template kind) (expect (template.composing compose) kind) :=
  twins_peek.bind fun _ => .ite twins_advance twins_fail

theorem twins_tokenBound : Twins sound tokenBound tokenBound :=
  (twins_calm calm_get).bind fun _ => twins_pure

theorem twins_defer (tokens : List Token) : Twins sound (defer tokens) (defer tokens) :=
  twins_modify fun _ => rfl

theorem twins_setMode (mode : Mode) : Twins sound (setMode mode) (setMode mode) :=
  twins_modify fun _ => rfl

theorem twins_skip (count : Nat) :
    Twins sound (skip template count) (skip (template.composing compose) count) := by
  induction count with
  | zero => exact twins_pure
  | succ count ih => exact twins_drop.bind fun _ => ih

theorem twins_skipNewlinesWith (fuel : Nat) :
    Twins sound (skipNewlinesWith template fuel)
      (skipNewlinesWith (template.composing compose) fuel) := by
  induction fuel with
  | zero => exact alike_throw
  | succ fuel ih =>
      exact (twins_isAt _).bind fun _ => .ite (twins_drop.bind fun _ => ih) twins_pure

theorem twins_skipNewlines :
    Twins sound (skipNewlines template) (skipNewlines (template.composing compose)) :=
  twins_tokenBound.bind twins_skipNewlinesWith

theorem twins_newlinesFrom (fuel : Nat) : ∀ offset : Nat,
    Twins sound (newlinesFrom template fuel offset)
      (newlinesFrom (template.composing compose) fuel offset) := by
  induction fuel with
  | zero => exact fun _ => alike_throw
  | succ fuel ih =>
      exact fun offset => (twins_peekAt offset).bind fun _ => .ite (ih (offset + 1)) twins_pure

end Tokens

/-! ## Nodes and raw bodies -/

theorem twins_newNode {line : Int} {kind : Kind BlockId} {blocks : List (Block BlockId Draft)}
    {code : Option Draft} :
    Twins sound (newNode line kind blocks code) (newNode line kind blocks code) :=
  twins_calm calm_newNode

theorem twins_newBlock {line : Int} {nodes : List Draft} {props : BlockProps} :
    Twins sound (newBlock line nodes props) (newBlock line nodes props) :=
  twins_calm calm_newBlock

theorem twins_textLine : Twins sound (textLine template) (textLine (template.composing compose)) :=
  (twins_expect _).bind fun _ => twins_newNode

theorem twins_doctypeStatement :
    Twins sound (doctypeStatement template) (doctypeStatement (template.composing compose)) :=
  (twins_expect _).bind fun _ => twins_newNode

theorem twins_yieldStatement :
    Twins sound (yieldStatement template) (yieldStatement (template.composing compose)) :=
  (twins_expect _).bind fun _ => twins_newBlock.bind fun _ => twins_pure

theorem twins_rawLinesWith {deeper deeper' : Parse (Block BlockId Draft)}
    (h : Twins sound deeper deeper') {indent : Nat} (fuel : Nat) :
    Twins sound (rawLinesWith template deeper indent fuel)
      (rawLinesWith (template.composing compose) deeper' indent fuel) := by
  induction fuel with
  | zero => exact alike_throw
  | succ fuel ih =>
      refine twins_peek.bind fun token => ?_
      cases token.kind with
      | outdent => exact twins_pure
      | newline => exact twins_drop.bind fun _ => ih
      | indent => exact h.bind fun _ => ih.bind fun _ => twins_pure
      | _ =>
          exact twins_advance.bind fun _ => twins_newNode.bind fun _ =>
            ih.bind fun _ => twins_pure

theorem twins_rawBlockWith (fuel : Nat) :
    Twins sound (rawBlockWith template fuel) (rawBlockWith (template.composing compose) fuel) := by
  induction fuel with
  | zero => exact alike_throw
  | succ fuel ih =>
      refine (twins_expect _).bind fun token => (twins_calm calm_get).bind fun progress => ?_
      refine Twins.bind (twins_modify fun _ => rfl) fun _ => twins_tokenBound.bind fun bound => ?_
      refine (twins_rawLinesWith ih bound).bind fun _ => Twins.bind (twins_modify fun after => ?_)
        fun _ => (twins_expect _).discard.bind fun _ => twins_newBlock
      split <;> rfl

theorem twins_rawBlock : Twins sound (rawBlock template) (rawBlock (template.composing compose)) :=
  (twins_setMode _).bind fun _ => twins_tokenBound.bind fun fuel =>
    (twins_rawBlockWith fuel).bind fun _ => (twins_setMode _).bind fun _ => twins_pure

theorem twins_filterStatement :
    Twins sound (filterStatement template) (filterStatement (template.composing compose)) := by
  refine (twins_expect _).bind fun token => twins_peek.bind fun after => .ite ?_ ?_
  · exact twins_drop.bind fun _ => twins_pure.bind fun _ => twins_rawBlock.bind fun _ =>
      twins_newNode
  · exact twins_pure.bind fun _ => twins_rawBlock.bind fun _ => twins_newNode

/-! ## Productions with statements inside -/

section Productions

variable {inner inner' : Parse Draft} (h : Twins sound inner inner')
include h

theorem twins_statementsWith {stop : TokenKind} (fuel : Nat) :
    Twins sound (statementsWith template inner stop fuel)
      (statementsWith (template.composing compose) inner' stop fuel) := by
  induction fuel with
  | zero => exact alike_throw
  | succ fuel ih =>
      refine twins_peek.bind fun token => .ite twins_pure (.ite ?_ ?_)
      · exact twins_drop.bind fun _ => ih
      · exact h.bind fun _ => ih.bind fun _ => twins_pure

theorem twins_statements {stop : TokenKind} :
    Twins sound (statements template inner stop)
      (statements (template.composing compose) inner' stop) :=
  twins_tokenBound.bind fun fuel => twins_statementsWith h fuel

theorem twins_indentedBlock :
    Twins sound (indentedBlock template inner)
      (indentedBlock (template.composing compose) inner') :=
  (twins_expect _).bind fun _ => (twins_statements h).bind fun _ =>
    (twins_expect _).discard.bind fun _ => twins_newBlock

theorem twins_armBody :
    Twins sound (armBody template inner) (armBody (template.composing compose) inner') := by
  refine twins_peek.bind fun token => .ite ?_ (twins_indentedBlock h)
  exact twins_drop.bind fun _ => h.bind fun _ => twins_newBlock

theorem twins_caseStatement :
    Twins sound (caseStatement template inner)
      (caseStatement (template.composing compose) inner') :=
  (twins_expect _).bind fun _ => (twins_indentedBlock h).bind fun _ => twins_newNode

theorem twins_whenStatement :
    Twins sound (whenStatement template inner)
      (whenStatement (template.composing compose) inner') :=
  (twins_expect _).bind fun _ => (twins_armBody h).bind fun _ => twins_newNode

theorem twins_defaultStatement :
    Twins sound (defaultStatement template inner)
      (defaultStatement (template.composing compose) inner') :=
  (twins_expect _).bind fun _ => (twins_armBody h).bind fun _ => twins_newNode

theorem twins_codeStatement :
    Twins sound (codeStatement template inner)
      (codeStatement (template.composing compose) inner') := by
  refine (twins_expect _).bind fun token => twins_tokenBound.bind fun fuel => ?_
  refine (twins_newlinesFrom fuel 0).bind fun breaks => (twins_peekAt breaks).bind
    fun after => .ite ?_ twins_newNode
  exact (twins_skip breaks).bind fun _ => (twins_indentedBlock h).bind fun _ => twins_newNode

theorem twins_eachStatement :
    Twins sound (eachStatement template inner)
      (eachStatement (template.composing compose) inner') := by
  refine (twins_expect _).bind fun token => (twins_indentedBlock h).bind fun body => ?_
  refine twins_peek.bind fun after => .ite ?_ twins_newNode
  exact twins_drop.bind fun _ => (twins_indentedBlock h).bind fun _ => twins_newNode

theorem twins_commentStatement :
    Twins sound (commentStatement template inner)
      (commentStatement (template.composing compose) inner') := by
  refine (twins_expect _).bind fun token => (twins_isAt _).bind fun found => ?_
  exact .ite ((twins_indentedBlock h).bind fun _ => twins_newNode) twins_newNode

/-! ## Elements -/

omit h in
theorem twins_readAttributesWith (fuel : Nat) : ∀ {classes : List String} {element : Element},
    Twins sound (readAttributesWith template fuel classes element)
      (readAttributesWith (template.composing compose) fuel classes element) := by
  induction fuel with
  | zero => exact alike_throw
  | succ fuel ih =>
      intro classes element
      refine twins_peek.bind fun token => ?_
      cases token.kind with
      | idName => exact twins_drop.bind fun _ => ih
      | className => exact twins_drop.bind fun _ => ih
      | attrs => exact twins_drop.bind fun _ => ih
      | _ => exact twins_pure

omit h in
theorem twins_takeDot :
    Twins sound (takeDot template) (takeDot (template.composing compose)) :=
  twins_peek.bind fun _ => .ite (twins_drop.bind fun _ => twins_pure) twins_pure

theorem twins_readLineContent {opened : OpenElement} :
    Twins sound (readLineContent template inner opened)
      (readLineContent (template.composing compose) inner' opened) := by
  refine twins_peek.bind fun token => ?_
  cases token.kind with
  | text => exact twins_textLine.bind fun _ => twins_pure
  | code => exact (twins_codeStatement h).bind fun _ => twins_pure
  | colon => exact twins_drop.bind fun _ => h.bind fun _ => twins_newBlock.bind fun _ => twins_pure
  | _ => exact twins_pure

theorem twins_readBody {opened : OpenElement} :
    Twins sound (readBody template inner opened)
      (readBody (template.composing compose) inner' opened) := by
  refine (twins_isAt _).bind fun _ => .ite (.ite ?_ ?_) twins_pure
  · exact twins_rawBlock.bind fun _ => twins_pure
  · exact (twins_indentedBlock h).bind fun _ => twins_pure

theorem twins_readElement {element : Element} :
    Twins sound (readElement template inner element)
      (readElement (template.composing compose) inner' element) := by
  refine twins_newBlock.bind fun body => ?_
  refine Twins.bind (twins_tokenBound.bind fun fuel => twins_readAttributesWith fuel)
    fun element => twins_takeDot.bind fun dot => ?_
  exact (twins_readLineContent h).bind fun opened => twins_skipNewlines.bind fun _ =>
    twins_readBody h

theorem twins_tagStatement :
    Twins sound (tagStatement template inner)
      (tagStatement (template.composing compose) inner') :=
  (twins_expect _).bind fun _ => (twins_readElement h).bind fun _ => twins_newNode

theorem twins_interpolatedStatement :
    Twins sound (interpolatedStatement template inner)
      (interpolatedStatement (template.composing compose) inner') :=
  (twins_expect _).bind fun _ => (twins_readElement h).bind fun _ => twins_newNode

theorem twins_callStatement :
    Twins sound (callStatement template inner)
      (callStatement (template.composing compose) inner') :=
  (twins_expect _).bind fun _ => (twins_readElement h).bind fun _ => twins_newNode

theorem twins_shorthandStatement :
    Twins sound (shorthandStatement template inner)
      (shorthandStatement (template.composing compose) inner') :=
  twins_advance.bind fun _ => (twins_defer _).bind fun _ => h

/-! ## Composition -/

theorem twins_namedContent {line : Int} :
    Twins sound (namedContent template inner line)
      (namedContent (template.composing compose) inner' line) :=
  (twins_isAt _).bind fun _ => .ite (twins_indentedBlock h)
    (twins_newNode.bind fun _ => twins_newBlock)

theorem twins_blockStatement :
    Twins sound (blockStatement template inner)
      (blockStatement (template.composing compose) inner') :=
  (twins_expect _).bind fun _ => (twins_namedContent h).bind fun _ =>
    (twins_calm calm_defineBlock).bind fun _ => twins_pure

theorem twins_mixinStatement :
    Twins sound (mixinStatement template inner)
      (mixinStatement (template.composing compose) inner') := by
  refine (twins_expect _).bind fun token => (twins_isAt _).bind fun found =>
    .ite ?_ twins_newNode
  exact (twins_indentedBlock h).bind fun _ => twins_newNode.bind fun _ =>
    (twins_calm calm_modifyAssembly).bind fun _ => twins_pure

end Productions

end Parse

/-! ## Naming other templates -/

/-- A source that a template may have composed: it was loaded under a path in normal form, which
    is not the template's own nor one that it was reached from. -/
structure Spawns (config : Config) (source child : Source) : Prop where
  lineage : child.lineage = source.path
  loaded : ∃ path, child.filename = some path ∧ Path.normalizeString path = path
    ∧ path ∉ source.path ∧ config.activeLoader.load path = .ok child.text

/-- The source of a layout. -/
def Layout.source (layout : Layout) (source : Source) : Source :=
  { text := layout.text, filename := some layout.path, lineage := source.path }

theorem Source.template_filename (source : Source) (config : Config)
    (compose : Source → Assemble Composed) (owner : Nat) :
    (source.template config compose owner).filename = source.filename := rfl

namespace Parse

variable {α : Type} {config : Config} {source : Source} {owner : Nat}
  {compose other : Source → Assemble Composed} {sound : Option Layout → Prop}

theorem normalizeString_resolvePath (extension filename target : String) :
    Path.normalizeString (resolvePath extension filename target)
      = resolvePath extension filename target :=
  Path.normalizeString_ofList_normalize _

theorem twins_assemble {action : Assemble α} :
    Twins sound (assemble action) (assemble action) := by
  intro progress hsound
  refine ⟨rfl, fun result after hrun => ?_⟩
  unfold assemble at hrun
  cases haction : action progress.assembly with
  | ok value assembly =>
      rw [haction] at hrun
      cases hrun
      exact hsound
  | error fault assembly =>
      rw [haction] at hrun
      cases hrun

/-- Behind the check, the path does not lead back. -/
theorem alike_checkCycle {path : String} {line : Int} :
    Alike (fun progress => sound progress.layout)
      (checkCycle (source.template config compose owner) path line)
      (checkCycle (source.template config other owner) path line)
      fun _ progress => path ∉ source.path ∧ sound progress.layout := by
  refine .ite (fun _ => alike_throw) fun hcontains => alike_pure fun progress hsound => ?_
  exact ⟨by simpa [Source.template] using hcontains, hsound⟩

theorem alike_load {pre : Progress → Prop} {path : String} {line : Int} :
    Alike pre (load (source.template config compose owner) path line)
      (load (source.template config other owner) path line)
      fun text progress => config.activeLoader.load path = .ok text ∧ pre progress := by
  unfold load
  dsimp only [Source.template]
  cases hload : config.activeLoader.load path with
  | ok text => exact alike_pure fun _ hpre => ⟨rfl, hpre⟩
  | error fault => exact alike_throw

variable (hagree : ∀ child, Spawns config source child → compose child = other child)
include hagree

theorem twins_includeTemplate {inner inner' : Parse Draft} (h : Twins sound inner inner')
    {filename path : String} (hnormal : Path.normalizeString path = path) {line : Int} :
    Twins sound (includeTemplate (source.template config compose owner) inner filename path line)
      (includeTemplate (source.template config other owner) inner' filename path line) := by
  refine Alike.bind alike_checkCycle fun _ => .of_pre fun _ hstate => ?_
  obtain ⟨hfresh, -⟩ := hstate
  refine Alike.imp ?_ (fun _ hstate => hstate.2) fun _ _ => id
  refine Twins.bind (twins_calm calm_tell) fun _ => alike_load.bind fun text =>
    .of_pre fun _ hstate => ?_
  obtain ⟨hload, -⟩ := hstate
  refine Alike.imp ?_ (fun _ hstate => hstate.2) fun _ _ => id
  -- the source was loaded under a path that does not lead back, so it is composed in the same way
  have hsame : composeInclude (source.template config compose owner)
      { text, filename := some path, lineage := source.path }
      = composeInclude (source.template config other owner)
        { text, filename := some path, lineage := source.path } := by
    have hchild := hagree { text, filename := some path, lineage := source.path }
      ⟨rfl, path, rfl, hnormal, hfresh, hload⟩
    unfold composeInclude
    dsimp only [Source.template]
    rw [hchild]
  have hcompose : Twins sound
      (assemble (composeInclude (source.template config compose owner)
        { text, filename := some path, lineage := source.path }))
      (assemble (composeInclude (source.template config other owner)
        { text, filename := some path, lineage := source.path })) := by
    rw [hsame]
    exact twins_assemble
  refine hcompose.bind fun composed => twins_assemble.bind fun root => ?_
  refine (twins_isAt _).bind fun found => .ite ?_ twins_pure
  exact twins_assemble.bind fun target => (twins_indentedBlock h).bind fun content =>
    twins_assemble.bind fun _ => twins_pure

omit hagree in
theorem twins_includeLiteral {filename path : String} {line : Int} :
    Twins sound (includeLiteral (source.template config compose owner) filename path line)
      (includeLiteral (source.template config other owner) filename path line) := by
  refine Twins.bind (twins_calm calm_tell) fun _ => alike_load.bind fun text => ?_
  refine Alike.imp ?_ (fun _ hstate => hstate.2) fun _ _ => id
  exact twins_peek.bind fun token => .ite twins_fail_bind twins_newNode

theorem twins_includeStatement {inner inner' : Parse Draft} (h : Twins sound inner inner') :
    Twins sound (includeStatement (source.template config compose owner) inner)
      (includeStatement (source.template config other owner) inner') := by
  refine (twins_expect _).bind fun token => ?_
  cases hfilename : source.filename with
  | none =>
      simp only [Source.template_filename, hfilename]
      exact twins_fail
  | some filename =>
      simp only [Source.template_filename, hfilename]
      refine .ite ?_ twins_includeLiteral
      exact twins_includeTemplate hagree h (normalizeString_resolvePath ..)

omit hagree in
/-- The layout that an `extends` notes was loaded under a path that does not lead back. -/
theorem twins_extendsStatement
    (hsound : ∀ layout, Spawns config source (layout.source source) → sound (some layout)) :
    Twins sound (extendsStatement (source.template config compose owner))
      (extendsStatement (source.template config other owner)) := by
  refine (twins_expect _).bind fun token => ?_
  cases hfilename : source.filename with
  | none =>
      simp only [Source.template_filename, hfilename]
      exact twins_fail
  | some filename =>
      simp only [Source.template_filename, hfilename]
      refine Twins.bind (twins_calm calm_get) fun progress => .ite twins_fail_bind ?_
      refine Alike.bind alike_checkCycle fun _ => .of_pre fun _ hstate => ?_
      obtain ⟨hfresh, -⟩ := hstate
      refine Alike.imp ?_ (fun _ hstate => hstate.2) fun _ _ => id
      refine Twins.bind (twins_calm calm_tell) fun _ => alike_load.bind fun text =>
        .of_pre fun _ hstate => ?_
      obtain ⟨hload, -⟩ := hstate
      refine Alike.bind (m := fun _ progress => sound progress.layout) (fun progress _ => ⟨rfl, ?_⟩)
        fun _ => twins_newNode
      rintro _ _ ⟨⟩
      exact hsound _ ⟨rfl, _, rfl, normalizeString_resolvePath .., hfresh, hload⟩

/-! ## Statements -/

/-- What is sound for a layout that a template may have composed. -/
theorem twins_statementWith
    (hsound : ∀ layout, Spawns config source (layout.source source) → sound (some layout))
    (fuel : Nat) :
    Twins sound (statementWith (source.template config compose owner) fuel)
      (statementWith (source.template config other owner) fuel) := by
  induction fuel with
  | zero => exact alike_throw
  | succ fuel ih =>
      refine twins_peek.bind fun token => ?_
      cases token.kind with
      | tag => exact twins_tagStatement ih
      | mixin => exact twins_mixinStatement ih
      | block => exact twins_blockStatement ih
      | case => exact twins_caseStatement ih
      | when => exact twins_whenStatement ih
      | default => exact twins_defaultStatement ih
      | «extends» => exact twins_extendsStatement hsound
      | «include» => exact twins_includeStatement hagree ih
      | doctype => exact twins_doctypeStatement
      | filter => exact twins_filterStatement
      | comment => exact twins_commentStatement ih
      | text => exact twins_textLine
      | each => exact twins_eachStatement ih
      | code => exact twins_codeStatement ih
      | call => exact twins_callStatement ih
      | interpolation => exact twins_interpolatedStatement ih
      | yield => exact twins_yieldStatement
      | idName => exact twins_shorthandStatement ih
      | className => exact twins_shorthandStatement ih
      | _ => exact twins_fail

/-- **A template is read alike** however other templates are composed than those it may name, and
    the layout that it notes is one of these. -/
theorem twins_document
    (hsound : ∀ layout, Spawns config source (layout.source source) → sound (some layout)) :
    Twins sound (document (source.template config compose owner))
      (document (source.template config other owner)) :=
  twins_tokenBound.bind fun _ => twins_statements (twins_statementWith hagree hsound _)

end Parse

/-! ## Composing -/

variable {config : Config} {source : Source} {compose other : Source → Assemble Composed}

/-- The layouts that a template may note. -/
def Source.MayExtend (source : Source) (config : Config) (layout? : Option Layout) : Prop :=
  ∀ layout, layout? = some layout → Spawns config source (layout.source source)

/-- The statements of a template do not depend on how others are composed than those it may name,
    and its layout is one of these. -/
theorem readStatements_congr (hagree : ∀ child, Spawns config source child →
    compose child = other child) (assembly : Assembly) :
    readStatements config compose source assembly = readStatements config other source assembly
      ∧ ∀ nodes layout? read, readStatements config compose source assembly
          = .ok (nodes, layout?) read → source.MayExtend config layout? := by
  have hstart : source.MayExtend config (source.begin config assembly).layout := nofun
  have htwins : Parse.Twins (source.MayExtend config)
      (Parse.document (source.template config compose assembly.templates))
      (Parse.document (source.template config other assembly.templates)) :=
    Parse.twins_document hagree fun layout hspawns _ heq => Option.some.inj heq ▸ hspawns
  obtain ⟨hsame, hlayout⟩ := htwins _ hstart
  constructor
  · cases hread : Parse.document (source.template config compose assembly.templates)
        (source.begin config assembly) with
    | ok nodes after =>
        rw [readStatements_eq_ok.mpr ⟨after, hread, rfl, rfl⟩,
          readStatements_eq_ok.mpr ⟨after, hsame.symm.trans hread, rfl, rfl⟩]
    | error fault after =>
        rw [readStatements_of_fault hread, readStatements_of_fault (hsame.symm.trans hread)]
  · intro nodes layout? read hread
    obtain ⟨after, hdocument, rfl, -⟩ := readStatements_eq_ok.mp hread
    exact hlayout _ _ hdocument

/-- **Composing a template depends on nothing but how those are composed that it may name.** -/
theorem composeStep_congr (hagree : ∀ child, Spawns config source child →
    compose child = other child) :
    composeStep config compose source = composeStep config other source := by
  funext assembly
  obtain ⟨hsame, hlayout⟩ := readStatements_congr hagree assembly
  show EStateM.bind (readStatements config compose source) _ assembly
    = EStateM.bind (readStatements config other source) _ assembly
  unfold EStateM.bind
  rw [← hsame]
  cases hread : readStatements config compose source assembly with
  | error fault read => rfl
  | ok result read =>
      obtain ⟨nodes, layout?⟩ := result
      cases layout? with
      | none => rfl
      | some layout =>
          have hchild := hagree (layout.source source) (hlayout _ _ _ hread layout rfl)
          have hcompose : composeLayout compose source layout
              = composeLayout other source layout := by
            unfold composeLayout
            simp only [Layout.source] at hchild
            rw [hchild]
          dsimp only
          rw [hcompose]

end Stencil
