import Stencil.Proofs.Composition.Blame
import Stencil.Proofs.Grammar.Gapped

/-! # Neutral lines — statements around a gap

    Every statement crosses a gap, given a reader for raw bodies that does and
    inner statements that do: one lemma for each production.  So a whole template
    does (`crosses_document`), with any way to compose other templates that looks
    at no line number. -/

namespace Stencil.Parse

open Lexer

variable {place : Option Gap} {mode : Mode} {template : Template} {other : Composer}

/-! ## Bodies -/

section Inner

variable {inner inner' inner'' : Parse Draft}
  (h : Crosses place mode Node.Like inner inner' inner'')
  {template' template'' : Template}
include h

theorem crosses_statements {stop : TokenKind} :
    Crosses place mode NodesLike (statements template inner stop) (statements template' inner' stop)
      (statements template'' inner'' stop) := by
  refine Crosses.bounded ?_
  refine fuel_induction (fun _ _ => crosses_throw) (fun _ _ _ h => h.short) fun _ _ _ ih => ?_
  refine crosses_peek.token fun _ _ _ _ => .ite (crosses_pure rfl rfl) (.ite ?_ ?_)
  · exact crosses_drop.andThen fun _ => ih
  · exact h.bind fun _ _ _ hnode hnode' => ih.bind fun _ _ _ hnodes hnodes' =>
      crosses_pure (.cons hnode hnodes) (.cons hnode' hnodes')

theorem crosses_indentedBlock :
    Crosses place mode Block.Like (indentedBlock template inner) (indentedBlock template' inner')
      (indentedBlock template'' inner'') :=
  (crosses_expect _).token fun _ _ _ _ => (crosses_statements h).bind fun _ _ _ hnodes hnodes' =>
    (crosses_expect _).discard.andThen fun _ => crosses_newBlock hnodes hnodes'

theorem crosses_armBody :
    Crosses place mode Block.Like (armBody template inner) (armBody template' inner')
      (armBody template'' inner'') := by
  refine crosses_peek.token fun _ _ _ _ => .ite ?_ (crosses_indentedBlock h)
  exact crosses_drop.andThen fun _ => h.bind fun _ _ _ hnode hnode' =>
    crosses_newBlock (.cons hnode rfl) (.cons hnode' rfl)

theorem crosses_caseStatement :
    Crosses place mode Node.Like (caseStatement template inner) (caseStatement template' inner')
      (caseStatement template'' inner'') :=
  (crosses_expect _).token fun _ _ _ _ => (crosses_indentedBlock h).bind fun _ _ _ hbody hbody' =>
    crosses_around hbody hbody'

theorem crosses_whenStatement :
    Crosses place mode Node.Like (whenStatement template inner) (whenStatement template' inner')
      (whenStatement template'' inner'') :=
  (crosses_expect _).token fun _ _ _ _ => (crosses_armBody h).bind fun _ _ _ hbody hbody' =>
    crosses_around hbody hbody'

theorem crosses_defaultStatement :
    Crosses place mode Node.Like (defaultStatement template inner)
      (defaultStatement template' inner') (defaultStatement template'' inner'') :=
  (crosses_expect _).token fun _ _ _ _ => (crosses_armBody h).bind fun _ _ _ hbody hbody' =>
    crosses_around hbody hbody'

theorem crosses_codeStatement :
    Crosses place mode Node.Like (codeStatement template inner) (codeStatement template' inner')
      (codeStatement template'' inner'') := by
  refine (crosses_expect _).token fun _ _ _ _ => Crosses.bounded fun fuel fuel' fuel'' hle => ?_
  refine (crosses_newlinesFrom fuel fuel' fuel'' hle 0).andThen fun breaks =>
    (crosses_peekAt breaks).token fun _ _ _ _ => .ite ?_ crosses_leaf
  exact (crosses_skip breaks).andThen fun _ => (crosses_indentedBlock h).bind
    fun _ _ _ hbody hbody' => crosses_around hbody hbody'

theorem crosses_eachStatement :
    Crosses place mode Node.Like (eachStatement template inner) (eachStatement template' inner')
      (eachStatement template'' inner'') := by
  refine (crosses_expect _).token fun _ _ _ _ => (crosses_indentedBlock h).bind
    fun body body' body'' hbody hbody' => ?_
  refine crosses_peek.token fun _ _ _ _ => .ite ?_ (crosses_around hbody hbody')
  refine crosses_drop.andThen fun _ => (crosses_indentedBlock h).bind
    fun _ _ _ hother hother' => crosses_newNode ?_ ?_ rfl rfl
  · exact congrArg₂ (fun block other => [block, other]) hbody hother
  · exact congrArg₂ (fun block other => [block, other]) hbody' hother'

theorem crosses_commentStatement :
    Crosses place mode Node.Like (commentStatement template inner)
      (commentStatement template' inner') (commentStatement template'' inner'') := by
  refine (crosses_expect _).token fun _ _ _ _ => (crosses_isAt _).andThen fun found => ?_
  exact .ite ((crosses_indentedBlock h).bind fun _ _ _ hbody hbody' => crosses_around hbody hbody')
    crosses_leaf

/-! ## Elements -/

omit h in
theorem crosses_readAttributes (element : Element) :
    Crosses place mode Eq (readAttributes template element) (readAttributes template' element)
      (readAttributes template'' element) := by
  have hloop : ∀ fuel fuel' fuel'', fuel ≤ fuel' → ∀ (classes : List String) (element : Element),
      Crosses place mode Eq (readAttributesWith template fuel classes element)
        (readAttributesWith template' fuel' classes element)
        (readAttributesWith template'' fuel'' classes element) := by
    refine fuel_induction (fun _ _ _ _ => crosses_throw)
      (fun _ _ _ h classes element => (h classes element).short) fun _ _ _ ih classes element => ?_
    refine crosses_peek.token fun lexeme _ _ _ => ?_
    dsimp only [Token.kind]
    cases lexeme.kind with
    | idName => exact crosses_drop.andThen fun _ => ih _ _
    | className => exact crosses_drop.andThen fun _ => ih _ _
    | attrs => exact crosses_drop.andThen fun _ => ih _ _
    | _ => exact crosses_pure rfl rfl
  exact .bounded fun fuel fuel' fuel'' hle => hloop fuel fuel' fuel'' hle [] element

omit h in
theorem crosses_takeDot :
    Crosses place mode Eq (takeDot template) (takeDot template') (takeDot template'') :=
  crosses_peek.token fun _ _ _ _ =>
    .ite (crosses_drop.andThen fun _ => crosses_pure rfl rfl) (crosses_pure rfl rfl)

/-- Elements that are being read and differ in line numbers. -/
structure OpenElement.Like (opened other : OpenElement) : Prop where
  element : opened.element = other.element
  code : opened.code.map Node.lineless = other.code.map Node.lineless
  body : opened.body.Like other.body

omit h in
instance : Std.Refl OpenElement.Like := ⟨fun _ => ⟨rfl, rfl, rfl⟩⟩

theorem crosses_readLineContent {opened opened' opened'' : OpenElement}
    (hsame : opened.Like opened') (hsame' : opened.Like opened'') :
    Crosses place mode OpenElement.Like (readLineContent template inner opened)
      (readLineContent template' inner' opened') (readLineContent template'' inner'' opened'') := by
  have hcode : ∀ {code code' : Draft} {opened opened' : OpenElement}, code.Like code' →
      opened.Like opened' →
      OpenElement.Like { opened with code := some code } { opened' with code := some code' } :=
    fun hcode h => ⟨h.element, congrArg some hcode, h.body⟩
  have htext : ∀ {text text' : Draft} {opened opened' : OpenElement}, text.Like text' →
      opened.Like opened' → OpenElement.Like
        { opened with body := { opened.body with nodes := opened.body.nodes ++ [text] } }
        { opened' with body := { opened'.body with nodes := opened'.body.nodes ++ [text'] } } := by
    intro text text' opened opened' htext h
    have hnodes : NodesLike (opened.body.nodes ++ [text]) (opened'.body.nodes ++ [text']) :=
      .append h.body.nodes (.cons htext rfl)
    exact ⟨h.element, h.code, Node.like_of_parts h.body.id h.body.props hnodes⟩
  refine crosses_peek.token fun lexeme _ _ _ => ?_
  dsimp only [Token.kind]
  cases lexeme.kind with
  | text =>
      exact crosses_textLine.bind fun _ _ _ hnode hnode' =>
        crosses_pure (htext hnode hsame) (htext hnode' hsame')
  | code =>
      exact (crosses_codeStatement h).bind fun _ _ _ hnode hnode' =>
        crosses_pure (hcode hnode hsame) (hcode hnode' hsame')
  | colon =>
      refine crosses_drop.andThen fun _ => h.bind fun _ _ _ hnode hnode' => ?_
      refine (crosses_newBlock (.cons hnode rfl) (.cons hnode' rfl)).bind
        fun _ _ _ hbody hbody' => crosses_pure ?_ ?_
      · exact ⟨hsame.element, hsame.code, hbody⟩
      · exact ⟨hsame'.element, hsame'.code, hbody'⟩
  | _ => exact crosses_pure hsame hsame'

omit h in
theorem OpenElement.Like.joinBody {opened opened' : OpenElement} {body body' : Block BlockId Draft}
    (h : opened.Like opened') (hbody : body.Like body') :
    (joinBody opened body).Like (joinBody opened' body') := by
  have hempty : opened.body.nodes.isEmpty = opened'.body.nodes.isEmpty := by
    have hlength := congrArg List.isEmpty h.body.nodes
    rwa [List.isEmpty_map, List.isEmpty_map] at hlength
  have hnodes : NodesLike (opened.body.nodes ++ body.nodes) (opened'.body.nodes ++ body'.nodes) :=
    .append h.body.nodes hbody.nodes
  unfold Parse.joinBody
  rw [← hempty]
  split
  · exact ⟨h.element, h.code, hbody⟩
  · refine ⟨h.element, h.code, Node.like_of_parts h.body.id ?_ hnodes⟩
    dsimp only
    rw [h.body.props, hbody.props]

end Inner

/-! ## Readers of raw bodies -/

section Raw

variable {template' template'' : Template} {raw raw' raw'' : Parse (Block BlockId Draft)}
  (hraw : Crosses place mode Block.Like raw raw' raw'')
include hraw

theorem crosses_filterStatementVia :
    Crosses place mode Node.Like (filterStatementVia template raw)
      (filterStatementVia template' raw') (filterStatementVia template'' raw'') := by
  refine (crosses_expect _).token fun _ _ _ _ => crosses_peek.token fun _ _ _ _ => .ite ?_ ?_
  · refine crosses_drop.andThen fun _ => Crosses.andThen (crosses_pure rfl rfl) fun _ => ?_
    exact hraw.bind fun _ _ _ hbody hbody' => crosses_around hbody hbody'
  · refine Crosses.andThen (crosses_pure rfl rfl) fun _ => ?_
    exact hraw.bind fun _ _ _ hbody hbody' => crosses_around hbody hbody'

variable {inner inner' inner'' : Parse Draft}
  (h : Crosses place mode Node.Like inner inner' inner'')
include h

theorem crosses_readBodyVia {opened opened' opened'' : OpenElement} (hsame : opened.Like opened')
    (hsame' : opened.Like opened'') :
    Crosses place mode OpenElement.Like (readBodyVia template raw inner opened)
      (readBodyVia template' raw' inner' opened')
      (readBodyVia template'' raw'' inner'' opened'') := by
  have hmarked : ∀ {body body' : Block BlockId Draft}, body.Like body' →
      Block.Like { body with props := { body.props with textOnly := true } }
        { body' with props := { body'.props with textOnly := true } } :=
    fun h => Node.like_of_parts h.id
      (congrArg (fun props : BlockProps => { props with textOnly := true }) h.props) h.nodes
  unfold readBodyVia
  rw [← hsame.element, ← hsame'.element]
  refine (crosses_isAt _).andThen fun _ => .ite (.ite ?_ ?_) (crosses_pure hsame hsame')
  · exact hraw.bind fun _ _ _ hbody hbody' =>
      crosses_pure (hsame.joinBody (hmarked hbody)) (hsame'.joinBody (hmarked hbody'))
  · exact (crosses_indentedBlock h).bind fun _ _ _ hbody hbody' =>
      crosses_pure (hsame.joinBody hbody) (hsame'.joinBody hbody')

theorem crosses_readElementVia {element : Element} :
    Crosses place mode OpenElement.Like (readElementVia template raw inner element)
      (readElementVia template' raw' inner' element)
      (readElementVia template'' raw'' inner'' element) := by
  refine (crosses_newBlock rfl rfl).bind fun body body' body'' hbody hbody' => ?_
  refine (crosses_readAttributes element).andThen fun element =>
    crosses_takeDot.andThen fun dot => ?_
  have hopened : ∀ {block : Block BlockId Draft}, body.Like block →
      OpenElement.Like { element, body } { element, body := block } := fun h => ⟨rfl, rfl, h⟩
  refine (crosses_readLineContent h (hopened hbody) (hopened hbody')).bind
    fun opened opened' opened'' hsame hsame' => crosses_skipNewlines.andThen fun _ => ?_
  have hmarked : ∀ {opened opened' : OpenElement}, opened.Like opened' → OpenElement.Like
      { opened with
        element := { opened.element with textOnly := hasRawBody opened.element dot } }
      { opened' with
        element := { opened'.element with textOnly := hasRawBody opened'.element dot } } :=
    fun h => ⟨congrArg (fun element : Element =>
      { element with textOnly := hasRawBody element dot }) h.element, h.code, h.body⟩
  exact crosses_readBodyVia hraw h (hmarked hsame) (hmarked hsame')

omit hraw h in
/-- The node of an element that was read. -/
theorem crosses_opened {opened opened' opened'' : OpenElement} (hsame : opened.Like opened')
    (hsame' : opened.Like opened'') {line line' line'' : Int} (kind : Element → Kind BlockId) :
    Crosses place mode Node.Like (newNode line (kind opened.element) [opened.body] opened.code)
      (newNode line' (kind opened'.element) [opened'.body] opened'.code)
      (newNode line'' (kind opened''.element) [opened''.body] opened''.code) := by
  rw [← hsame.element, ← hsame'.element]
  exact crosses_newNode (congrArg (fun block => [block]) hsame.body)
    (congrArg (fun block => [block]) hsame'.body) hsame.code hsame'.code

theorem crosses_tagStatementVia :
    Crosses place mode Node.Like (tagStatementVia template raw inner)
      (tagStatementVia template' raw' inner') (tagStatementVia template'' raw'' inner'') :=
  (crosses_expect _).token fun _ _ _ _ => (crosses_readElementVia hraw h).bind
    fun _ _ _ hsame hsame' => crosses_opened hsame hsame' (Kind.tag · false)

theorem crosses_interpolatedStatementVia :
    Crosses place mode Node.Like (interpolatedStatementVia template raw inner)
      (interpolatedStatementVia template' raw' inner')
      (interpolatedStatementVia template'' raw'' inner'') :=
  (crosses_expect _).token fun _ _ _ _ => (crosses_readElementVia hraw h).bind
    fun _ _ _ hsame hsame' => crosses_opened hsame hsame' (Kind.tag · true)

theorem crosses_callStatementVia :
    Crosses place mode Node.Like (callStatementVia template raw inner)
      (callStatementVia template' raw' inner') (callStatementVia template'' raw'' inner'') := by
  have hbody : ∀ {opened opened' : OpenElement}, opened.Like opened' →
      (if opened.body.nodes.isEmpty then [] else [opened.body]).map Block.lineless
        = (if opened'.body.nodes.isEmpty then [] else [opened'.body]).map Block.lineless := by
    intro opened opened' h
    have hempty := congrArg List.isEmpty h.body.nodes
    rw [List.isEmpty_map, List.isEmpty_map] at hempty
    rw [hempty]
    split
    · rfl
    · exact congrArg (fun block => [block]) h.body
  refine (crosses_expect _).token fun _ _ _ _ => (crosses_readElementVia hraw h).bind
    fun opened opened' opened'' hsame hsame' => ?_
  rw [← hsame.element, ← hsame'.element]
  exact crosses_newNode (hbody hsame) (hbody hsame') hsame.code hsame'.code

end Raw

theorem crosses_shorthandStatement {template' template'' : Template}
    {inner inner' inner'' : Parse Draft} (h : Crosses place mode Node.Like inner inner' inner'') :
    Crosses place mode Node.Like (shorthandStatement template inner)
      (shorthandStatement template' inner') (shorthandStatement template'' inner'') := by
  refine crosses_advance.token fun _ _ _ _ => Crosses.andThen (crosses_defer ?_ ?_) fun _ => h
  · rfl
  · rfl

/-! ## Composition -/

section Composition

variable {inner inner' inner'' : Parse Draft}
  (h : Crosses place mode Node.Like inner inner' inner'')

theorem crosses_checkCycle {path : String} {line line' line'' : Int} :
    Crosses place mode Eq (checkCycle template path line) (checkCycle template path line')
      (checkCycle (template.composing other) path line'') :=
  .ite crosses_fail (crosses_pure rfl rfl)

theorem crosses_load {path : String} {line line' line'' : Int} :
    Crosses place mode Eq (load template path line) (load template path line')
      (load (template.composing other) path line'') := by
  unfold load
  rw [Template.composing_config]
  cases template.config.activeLoader.load path with
  | ok text => exact crosses_pure rfl rfl
  | error fault => exact crosses_fail

theorem crosses_extendsStatement :
    Crosses place mode Node.Like (extendsStatement template) (extendsStatement template)
      (extendsStatement (template.composing other)) := by
  refine (crosses_expect _).token fun _ _ _ _ => ?_
  rw [Template.composing_filename, Template.composing_config]
  cases template.filename with
  | none => exact crosses_fail
  | some filename =>
      refine crosses_get fun progress wide short hwide hshort => ?_
      rw [← hwide.layout, ← hshort.layout]
      refine .ite crosses_fail_bind (crosses_checkCycle.andThen fun _ =>
        crosses_tell.andThen fun _ => crosses_load.andThen fun _ => ?_)
      refine Crosses.andThen (crosses_modify (fun _ => rfl) fun _ _ hshares => ?_)
        fun _ => crosses_leaf
      exact ⟨hshares.rawBase, rfl, hshares.assembly⟩

theorem crosses_includeLiteral {filename path : String} {line line' line'' : Int} :
    Crosses place mode Node.Like (includeLiteral template filename path line)
      (includeLiteral template filename path line')
      (includeLiteral (template.composing other) filename path line'') :=
  crosses_tell.andThen fun _ => crosses_load.andThen fun _ => crosses_peek.token fun _ _ _ _ =>
    .ite crosses_fail_bind crosses_leaf

include h

theorem crosses_namedContent {line line' line'' : Int} :
    Crosses place mode Block.Like (namedContent template inner line)
      (namedContent template inner' line')
      (namedContent (template.composing other) inner'' line'') :=
  (crosses_isAt _).andThen fun _ => .ite (crosses_indentedBlock h)
    (crosses_leaf.bind fun _ _ _ hnode hnode' =>
      crosses_newBlock (.cons hnode rfl) (.cons hnode' rfl))

theorem crosses_blockStatement :
    Crosses place mode Node.Like (blockStatement template inner) (blockStatement template inner')
      (blockStatement (template.composing other) inner'') := by
  have hnamed : ∀ {content content' : Block BlockId Draft} (mode : BlockMode)
      (filename : Option String), content.Like content' →
      Block.Like { content with props := { content.props with mode, filename } }
        { content' with props := { content'.props with mode, filename } } :=
    fun mode filename h => Node.like_of_parts h.id
      (congrArg (fun props : BlockProps => { props with mode, filename }) h.props) h.nodes
  refine (crosses_expect _).token fun _ _ _ _ => (crosses_namedContent h).bind
    fun _ _ _ hcontent hcontent' => ?_
  refine Crosses.bind (crosses_assemble (mirrors_defineBlock _ _ (hnamed _ _ hcontent))
    (mirrors_defineBlock _ _ (hnamed _ _ hcontent'))) fun _ _ _ hblock hblock' => ?_
  exact crosses_pure hblock.ofBlock hblock'.ofBlock

theorem crosses_mixinStatement :
    Crosses place mode Node.Like (mixinStatement template inner) (mixinStatement template inner')
      (mixinStatement (template.composing other) inner'') := by
  have hinsert : ∀ {definition definition' : Draft} (name : String), definition.Like definition' →
      Blind Eq
        (modifyAssembly fun assembly =>
          { assembly with mixins := assembly.mixins.insert name definition })
        (modifyAssembly fun assembly =>
          { assembly with mixins := assembly.mixins.insert name definition' }) := by
    intro definition definition' name h
    refine blind_modifyAssembly fun assembly other hlike =>
      ⟨hlike.store, hlike.registry, ?_, hlike.templates⟩
    have hmixins := hlike.mixins
    unfold linelessMixins at hmixins ⊢
    rw [OrderedMap.mapValues_insert, OrderedMap.mapValues_insert, hmixins, h]
  refine (crosses_expect _).token fun _ _ _ _ => (crosses_isAt _).andThen fun _ =>
    .ite ?_ crosses_leaf
  refine (crosses_indentedBlock h).bind fun _ _ _ hbody hbody' =>
    (crosses_around hbody hbody').bind fun _ _ _ hnode hnode' => ?_
  exact ((hinsert _ hnode).crosses (hinsert _ hnode')).andThen fun _ => crosses_pure hnode hnode'

variable (hcompose : Mirroring template.compose)
  (hother : ∀ source, Mirrors Composed.Like (template.compose source) (other source))
include hcompose hother

theorem crosses_includeTemplate {filename path : String} {line line' line'' : Int} :
    Crosses place mode Node.Like (includeTemplate template inner filename path line)
      (includeTemplate template inner' filename path line')
      (includeTemplate (template.composing other) inner'' filename path line'') := by
  refine crosses_checkCycle.andThen fun _ => crosses_tell.andThen fun _ =>
    crosses_load.andThen fun text => ?_
  refine Crosses.bind (crosses_assemble (mirrors_composeInclude _ (hcompose _))
    (mirrors_composeInclude _ (hother _))) fun _ _ _ hcomposed hcomposed' => ?_
  refine Crosses.bind (crosses_assemble (mirrors_nameRoot path hcomposed.root)
    (mirrors_nameRoot path hcomposed'.root)) fun _ _ _ hroot hroot' => ?_
  refine (crosses_isAt _).andThen fun _ => .ite ?_ (crosses_pure hroot.ofBlock hroot'.ofBlock)
  refine Crosses.bind (crosses_assemble (mirrors_includeTarget hroot)
    (mirrors_includeTarget hroot')) fun _ _ _ htarget htarget' => ?_
  refine (crosses_indentedBlock h).bind fun _ _ _ hcontent hcontent' => ?_
  refine Crosses.bind (crosses_assemble (mirrors_pushInto htarget hcontent.ofBlock)
    (mirrors_pushInto htarget' hcontent'.ofBlock)) fun _ _ _ _ _ => ?_
  exact crosses_pure hroot.ofBlock hroot'.ofBlock

theorem crosses_includeStatement :
    Crosses place mode Node.Like (includeStatement template inner)
      (includeStatement template inner') (includeStatement (template.composing other) inner'') := by
  refine (crosses_expect _).token fun _ _ _ _ => ?_
  rw [Template.composing_filename, Template.composing_config]
  cases template.filename with
  | none => exact crosses_fail
  | some filename =>
      exact .ite (crosses_includeTemplate h hcompose hother) crosses_includeLiteral

end Composition

/-! ## Statements -/

section Statements

variable {raw raw' raw'' : Parse (Block BlockId Draft)}
  (hraw : Crosses place mode Block.Like raw raw' raw'') (hcompose : Mirroring template.compose)
  (hother : ∀ source, Mirrors Composed.Like (template.compose source) (other source))
include hraw hcompose hother

/-- **A statement crosses a gap**, one case for each kind of token that may start it. -/
theorem crosses_statementVia : ∀ fuel fuel' fuel'', fuel ≤ fuel' →
    Crosses place mode Node.Like (statementVia template raw fuel) (statementVia template raw' fuel')
      (statementVia (template.composing other) raw'' fuel'') := by
  refine fuel_induction (fun _ _ => crosses_throw) (fun _ _ _ h => h.short) fun _ _ _ ih => ?_
  refine crosses_peek.token fun lexeme _ _ _ => ?_
  dsimp only [Token.kind]
  cases lexeme.kind with
  | tag => exact crosses_tagStatementVia hraw ih
  | mixin => exact crosses_mixinStatement ih
  | block => exact crosses_blockStatement ih
  | case => exact crosses_caseStatement ih
  | when => exact crosses_whenStatement ih
  | default => exact crosses_defaultStatement ih
  | «extends» => exact crosses_extendsStatement
  | «include» => exact crosses_includeStatement ih hcompose hother
  | doctype => exact crosses_doctypeStatement
  | filter => exact crosses_filterStatementVia hraw
  | comment => exact crosses_commentStatement ih
  | text => exact crosses_textLine
  | each => exact crosses_eachStatement ih
  | code => exact crosses_codeStatement ih
  | call => exact crosses_callStatementVia hraw ih
  | interpolation => exact crosses_interpolatedStatementVia hraw ih
  | yield => exact crosses_yieldStatement
  | idName => exact crosses_shorthandStatement ih
  | className => exact crosses_shorthandStatement ih
  | _ => exact crosses_fail

/-- **A whole template crosses a gap** if its raw bodies do. -/
theorem crosses_documentVia :
    Crosses place mode NodesLike (documentVia template raw) (documentVia template raw')
      (documentVia (template.composing other) raw'') :=
  .bounded fun _ _ _ hle =>
    crosses_statements (crosses_statementVia hraw hcompose hother _ _ _ (Nat.mul_le_mul_left 2 hle))

end Statements

end Stencil.Parse
