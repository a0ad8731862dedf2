import Stencil.Proofs.Grammar.Meets

/-! # Shorthands — statements with and without the name of the element

    Every production meets at a shorthand, given inner statements that do: one
    lemma for each. -/

namespace Stencil.Parse

open Lexer

variable {place : BareShorthand} {template : Template} {composer : Composer}

/-! ## Bodies -/

section Inner

variable {inner : Run → Parse Draft} (h : Meets place inner)
include h

/-- A stop is a token that no element starts with. -/
theorem meets_statements {stop : TokenKind} (hstop : stop ∉ [.tag, .idName, .className]) :
    Meets place fun run => statements (template.inRun composer run) (inner run) stop := by
  refine meets_bounded <| fuel_runs
    (fun fuel => Meets place fun run =>
      statementsWith (template.inRun composer run) (inner run) stop (fuel run))
    (fun _ => meets_exhausted rfl rfl rfl) fun fuel fuel' ih => ?_
  refine meets_look (fun token => .ite meets_pure (.ite ?_ ?_)) fun token htoken => ?_
  · exact meets_drop.bind fun _ => ih
  · exact h.bind fun _ => ih.bind fun _ => meets_pure
  · obtain ⟨htag, hshorthand⟩ := not_or.mp (mt List.mem_cons.mpr hstop)
    have hother : Token.kind ⟨token.line, .tag "div" false⟩ ≠ stop := Ne.symm htag
    have hbreak : token.kind ≠ .newline := ne_of_isShorthand htoken (by decide)
    have hother' : Token.kind ⟨token.line, .tag "div" false⟩ ≠ .newline := nofun
    simp only [beq_eq_false_iff_ne.mpr (ne_of_isShorthand htoken hshorthand),
      beq_eq_false_iff_ne.mpr hother, beq_eq_false_iff_ne.mpr hbreak,
      beq_eq_false_iff_ne.mpr hother', Bool.false_eq_true, if_false]

theorem meets_indentedBlock :
    Meets place fun run => indentedBlock (template.inRun composer run) (inner run) :=
  (meets_expect (by decide)).bind fun _ => (meets_statements h (by decide)).bind fun _ =>
    (meets_expect (by decide)).discard.bind fun _ => meets_newBlock

theorem meets_armBody :
    Meets place fun run => armBody (template.inRun composer run) (inner run) := by
  refine meets_look (fun _ => .ite ?_ (meets_indentedBlock h)) ?_
  · exact meets_drop.bind fun _ => h.bind fun _ => meets_newBlock
  · rintro token (htoken | htoken) <;> rw [htoken] <;> rfl

theorem meets_caseStatement :
    Meets place fun run => caseStatement (template.inRun composer run) (inner run) :=
  (meets_expect (by decide)).bind fun _ => (meets_indentedBlock h).bind fun _ => meets_newNode

theorem meets_whenStatement :
    Meets place fun run => whenStatement (template.inRun composer run) (inner run) :=
  (meets_expect (by decide)).bind fun _ => (meets_armBody h).bind fun _ => meets_newNode

theorem meets_defaultStatement :
    Meets place fun run => defaultStatement (template.inRun composer run) (inner run) :=
  (meets_expect (by decide)).bind fun _ => (meets_armBody h).bind fun _ => meets_newNode

theorem meets_codeStatement :
    Meets place fun run => codeStatement (template.inRun composer run) (inner run) := by
  refine (meets_expect (by decide)).bind fun _ => meets_bounded fun fuel fuel' hle => ?_
  refine (meets_newlinesFrom fuel fuel' hle 0).bind fun breaks =>
    meets_look (fun _ => .ite ?_ meets_newNode) ?_
  · exact (meets_skip breaks).bind fun _ => (meets_indentedBlock h).bind fun _ => meets_newNode
  · rintro token (htoken | htoken) <;> rw [htoken] <;> rfl

theorem meets_eachStatement :
    Meets place fun run => eachStatement (template.inRun composer run) (inner run) := by
  refine (meets_expect (by decide)).bind fun _ => (meets_indentedBlock h).bind fun _ =>
    meets_look (fun _ => .ite ?_ meets_newNode) ?_
  · exact meets_drop.bind fun _ => (meets_indentedBlock h).bind fun _ => meets_newNode
  · rintro token (htoken | htoken) <;> rw [htoken] <;> rfl

theorem meets_commentStatement :
    Meets place fun run => commentStatement (template.inRun composer run) (inner run) :=
  (meets_expect (by decide)).bind fun _ => (meets_isAt (by decide)).bind fun _ =>
    .ite ((meets_indentedBlock h).bind fun _ => meets_newNode) meets_newNode

/-! ## Composition -/

omit h in
theorem meets_checkCycle {path : String} {line : Int} :
    Meets place fun run => checkCycle (template.inRun composer run) path line := by
  unfold checkCycle
  simp only [Template.inRun_lineage]
  exact .ite meets_fail meets_pure

omit h in
theorem meets_load {path : String} {line : Int} :
    Meets place fun run => load (template.inRun composer run) path line := by
  unfold load
  simp only [Template.inRun_config]
  cases template.config.activeLoader.load path with
  | ok text => exact meets_pure
  | error fault => exact meets_fail

omit h in
theorem meets_extendsStatement :
    Meets place fun run => extendsStatement (template.inRun composer run) := by
  refine (meets_expect (by decide)).bind fun token => ?_
  simp only [Template.inRun_filename, Template.inRun_config]
  cases template.filename with
  | none => exact meets_fail
  | some filename =>
      refine meets_get (fun progress => ?_) fun _ _ => rfl
      refine .ite meets_fail_bind (meets_checkCycle.bind fun _ => meets_tell.bind fun _ =>
        meets_load.bind fun _ => (meets_modify fun _ _ => rfl).bind fun _ => meets_newNode)

omit h in
theorem meets_includeLiteral {filename path : String} {line : Int} :
    Meets place fun run =>
      includeLiteral (template.inRun composer run) filename path line := by
  refine meets_tell.bind fun _ => meets_load.bind fun _ =>
    meets_look (fun _ => .ite meets_fail_bind meets_newNode) ?_
  rintro token (htoken | htoken) <;> rw [htoken] <;> rfl

theorem meets_namedContent {line : Int} :
    Meets place fun run => namedContent (template.inRun composer run) (inner run) line :=
  (meets_isAt (by decide)).bind fun _ => .ite (meets_indentedBlock h)
    (meets_newNode.bind fun _ => meets_newBlock)

theorem meets_blockStatement :
    Meets place fun run => blockStatement (template.inRun composer run) (inner run) := by
  refine (meets_expect (by decide)).bind fun token =>
    (meets_namedContent h).bind fun content => ?_
  simp only [Template.inRun_filename, Template.inRun_owner]
  exact meets_assemble.bind fun _ => meets_pure

theorem meets_mixinStatement :
    Meets place fun run => mixinStatement (template.inRun composer run) (inner run) :=
  (meets_expect (by decide)).bind fun _ => (meets_isAt (by decide)).bind fun _ =>
    .ite ((meets_indentedBlock h).bind fun _ => meets_newNode.bind fun _ =>
      meets_modifyAssembly.bind fun _ => meets_pure) meets_newNode

theorem meets_includeTemplate (hmends : Mends composer template.compose)
    {filename path : String} {line : Int} :
    Meets place fun run =>
      includeTemplate (template.inRun composer run) (inner run) filename path line := by
  unfold includeTemplate
  simp only [Template.inRun_lineage]
  refine meets_checkCycle.bind fun _ => meets_tell.bind fun _ => meets_load.bind fun text => ?_
  refine (meets_composeInclude hmends).bind fun composed => meets_assemble.bind fun root => ?_
  refine (meets_isAt (by decide)).bind fun _ => .ite ?_ meets_pure
  exact meets_assemble.bind fun _ => (meets_indentedBlock h).bind fun _ =>
    meets_assemble.bind fun _ => meets_pure

theorem meets_includeStatement (hmends : Mends composer template.compose) :
    Meets place fun run => includeStatement (template.inRun composer run) (inner run) := by
  refine (meets_expect (by decide)).bind fun token => ?_
  simp only [Template.inRun_filename, Template.inRun_config]
  cases template.filename with
  | none => exact meets_fail
  | some filename => exact .ite (meets_includeTemplate h hmends) meets_includeLiteral

/-! ## Elements -/

omit h in
theorem meets_readAttributesWith : ∀ fuel fuel', fuel ≤ fuel' →
    ∀ (classes : List String) (element : Element), Meets place fun run =>
      readAttributesWith (template.inRun composer run) (run.fuel fuel fuel') classes element := by
  refine fuel_runs
    (fun fuel => ∀ (classes : List String) (element : Element), Meets place fun run =>
      readAttributesWith (template.inRun composer run) (fuel run) classes element)
    (fun _ _ _ => meets_exhausted rfl rfl rfl) fun fuel fuel' ih classes element => ?_
  refine meets_look_leaving (fun token => ?_) fun core progress hlooked => ?_
  · cases token.kind with
    | idName => exact meets_drop.bind fun _ => ih _ _
    | className => exact meets_drop.bind fun _ => ih _ _
    | attrs => exact meets_drop.bind fun _ => ih _ _
    | _ => exact meets_pure
  · have hdrop : Leaving place (fun run => discard (advance (template.inRun composer run)))
        progress := leaving_drop hlooked
    rcases token_isShorthand place core.line with hkind | hkind
    · simp only [hkind]
      exact hdrop.bind fun _ _ _ hpast => (ih _ _).past hpast
    · simp only [hkind]
      exact hdrop.bind fun _ _ _ hpast => (ih _ _).past hpast

omit h in
theorem meets_takeDot : Meets place fun run => takeDot (template.inRun composer run) := by
  refine meets_look (fun _ => .ite (meets_drop.bind fun _ => meets_pure) meets_pure) ?_
  rintro token (htoken | htoken) <;> rw [htoken] <;> rfl

omit h in
theorem meets_textLine : Meets place fun run => textLine (template.inRun composer run) :=
  (meets_expect (by decide)).bind fun _ => meets_newNode

theorem meets_readLineContent {opened : OpenElement} :
    Meets place fun run =>
      readLineContent (template.inRun composer run) (inner run) opened := by
  refine meets_look (fun token => ?_) ?_
  · cases token.kind with
    | text => exact meets_textLine.bind fun _ => meets_pure
    | code => exact (meets_codeStatement h).bind fun _ => meets_pure
    | colon =>
        exact meets_drop.bind fun _ => h.bind fun _ => meets_newBlock.bind fun _ => meets_pure
    | _ => exact meets_pure
  · rintro token (htoken | htoken) <;> rw [htoken] <;> rfl

end Inner

/-! ## Raw bodies -/

theorem meets_rawLinesWith {deeper : Run → Parse (Block BlockId Draft)} (h : Meets place deeper)
    (indent : Nat) : ∀ fuel fuel', fuel ≤ fuel' → Meets place fun run =>
      rawLinesWith (template.inRun composer run) (deeper run) indent (run.fuel fuel fuel') := by
  refine fuel_runs
    (fun fuel => Meets place fun run =>
      rawLinesWith (template.inRun composer run) (deeper run) indent (fuel run))
    (fun _ => meets_exhausted rfl rfl rfl) fun fuel fuel' ih => ?_
  have hline : ∀ {line : Token}, Meets place fun run => do
      let node ← newNode line.line
        (.text (String.ofList (List.replicate indent ' ') ++ line.value))
      let nodes ← rawLinesWith (template.inRun composer run) (deeper run) indent
        (run.fuel fuel fuel')
      return node :: nodes :=
    meets_newNode.bind fun _ => ih.bind fun _ => meets_pure
  refine meets_look_leaving (fun token => ?_) fun core progress hlooked => ?_
  · cases token.kind with
    | outdent => exact meets_pure
    | newline => exact meets_drop.bind fun _ => ih
    | indent => exact h.bind fun _ => ih.bind fun _ => meets_pure
    | _ => exact meets_advance.bind fun _ => hline
  · have hadvance : Leaving place (fun run => advance (template.inRun composer run)) progress :=
      leaving_advance hlooked
    rcases token_isShorthand place core.line with hkind | hkind
    · simp only [hkind]
      exact hadvance.bind fun _ _ _ hpast => hline.past hpast
    · simp only [hkind]
      exact hadvance.bind fun _ _ _ hpast => hline.past hpast

theorem meets_rawBlockWith : ∀ fuel fuel', fuel ≤ fuel' → Meets place fun run =>
    rawBlockWith (template.inRun composer run) (run.fuel fuel fuel') := by
  refine fuel_runs
    (fun fuel => Meets place fun run => rawBlockWith (template.inRun composer run) (fuel run))
    (fun _ => meets_exhausted rfl rfl rfl) fun fuel fuel' ih => ?_
  refine (meets_expect (by decide)).bind fun token =>
    meets_get (fun progress => ?_) fun _ _ => rfl
  refine (meets_modify fun _ _ => rfl).bind fun _ => meets_bounded fun fuel fuel' hle =>
    (meets_rawLinesWith ih _ fuel fuel' hle).bind fun _ => ?_
  refine (meets_modify fun progress lexer => ?_).bind fun _ =>
    (meets_expect (by decide)).discard.bind fun _ => meets_newBlock
  dsimp only
  split <;> rfl

theorem meets_rawBlock : Meets place fun run => rawBlock (template.inRun composer run) :=
  meets_setMode.bind fun _ => (meets_bounded meets_rawBlockWith).bind fun _ =>
    meets_setMode.bind fun _ => meets_pure

theorem meets_filterStatement :
    Meets place fun run => filterStatement (template.inRun composer run) := by
  refine (meets_expect (by decide)).bind fun token => meets_look (fun after => ?_) ?_
  · refine .ite ?_ ?_
    · exact meets_drop.bind fun _ => meets_pure.bind fun _ =>
        meets_rawBlock.bind fun _ => meets_newNode
    · exact meets_pure.bind fun _ => meets_rawBlock.bind fun _ => meets_newNode
  · rintro token (htoken | htoken) <;> rw [htoken] <;> rfl

theorem meets_doctypeStatement :
    Meets place fun run => doctypeStatement (template.inRun composer run) :=
  (meets_expect (by decide)).bind fun _ => meets_newNode

theorem meets_yieldStatement :
    Meets place fun run => yieldStatement (template.inRun composer run) :=
  (meets_expect (by decide)).bind fun _ => meets_newBlock.bind fun _ => meets_pure

/-! ## Elements and their bodies -/

/-- Reads what follows the attributes of an element. -/
def afterAttributes (template : Template) (statement : Parse Draft) (body : Block BlockId Draft)
    (element : Element) : Parse OpenElement := do
  let dot ← takeDot template
  let opened ← readLineContent template statement { element, body }
  skipNewlines template
  let element := { opened.element with textOnly := hasRawBody opened.element dot }
  readBody template statement { opened with element }

section Elements

variable {inner : Run → Parse Draft} (h : Meets place inner)
include h

theorem meets_readBody {opened : OpenElement} :
    Meets place fun run => readBody (template.inRun composer run) (inner run) opened := by
  refine (meets_isAt (by decide)).bind fun _ => .ite (.ite ?_ ?_) meets_pure
  · exact meets_rawBlock.bind fun _ => meets_pure
  · exact (meets_indentedBlock h).bind fun _ => meets_pure

theorem meets_afterAttributes {body : Block BlockId Draft} {element : Element} :
    Meets place fun run =>
      afterAttributes (template.inRun composer run) (inner run) body element :=
  meets_takeDot.bind fun _ => (meets_readLineContent h).bind fun _ =>
    meets_skipNewlines.bind fun _ => meets_readBody h

theorem meets_readElement {element : Element} :
    Meets place fun run => readElement (template.inRun composer run) (inner run) element :=
  meets_newBlock.bind fun _ =>
    (meets_bounded fun fuel fuel' hle => meets_readAttributesWith fuel fuel' hle [] element).bind
      fun _ => meets_afterAttributes h

theorem meets_tagStatement :
    Meets place fun run => tagStatement (template.inRun composer run) (inner run) :=
  (meets_expect (by decide)).bind fun _ => (meets_readElement h).bind fun _ => meets_newNode

theorem meets_interpolatedStatement :
    Meets place fun run => interpolatedStatement (template.inRun composer run) (inner run) :=
  (meets_expect (by decide)).bind fun _ => (meets_readElement h).bind fun _ => meets_newNode

theorem meets_callStatement :
    Meets place fun run => callStatement (template.inRun composer run) (inner run) :=
  (meets_expect (by decide)).bind fun _ => (meets_readElement h).bind fun _ => meets_newNode

theorem meets_shorthandStatement :
    Meets place fun run => shorthandStatement (template.inRun composer run) (inner run) :=
  meets_advance.bind fun _ => meets_defer.bind fun _ => h

end Elements

end Stencil.Parse
