import Stencil.Proofs.Phrase.Elements

/-! # Reading documents

    The statements that define or compose something, the choice between all
    statements, and a whole template: `reads_document` says that a template is read
    as its phrases are scanned and evaluated.  Only here an evaluation calls for
    other templates; what comes of composing one may not depend on line numbers. -/

namespace Stencil.Parse

open Evaluate Phrase

variable {template : Template}

/-! ## Named blocks and mixins -/

theorem evaluate_named (name : String) (mode : BlockMode) (content : Phrase) :
    evaluate template (.make (.named name mode) [content])
      = evaluate template content >>= fun nodes =>
          Construct.finish template .nothing nodes (.named name mode) := by
  rw [evaluate_make, evaluateAll_singleton]
  rfl

theorem evaluate_mixin (name : String) (args : Option String) (content : Phrase) :
    evaluate template (.make (.mixin name args) [content])
      = evaluate template content >>= fun nodes =>
          Construct.finish template .nothing nodes (.mixin name args) := by
  rw [evaluate_make, evaluateAll_singleton]
  rfl

/-- The content of a named block that has no body. -/
theorem reads_emptyContent (line : Int) :
    ReadsBody template (do newBlock line [← newNode line (.literal "")])
      (pure (.make (.body {}) [.make (.node (.literal "")) []])) := by
  have hblock := fun node : Draft => (reads_newBlock line [node] {}).lift
    (fun block => [Node.ofBlock block]) fun _ => rfl
  refine .given ?_
  rw [evaluate_body, evaluateAll_singleton, evaluate_leaf]
  have hnode := reads_nodeOf (.literal "") line []
  exact hnode.close (fun nodes => do return [Node.ofBlock (← Evaluate.newBlock nodes {})]) hblock

/-- A block that is to be placed where it was made. -/
theorem reads_ofBlock (block : Block BlockId Draft) :
    Reads (fun node : Draft => [node.lineless]) (pure (.ofBlock block)) (pure ()) fun _ =>
      pure [.ofBlock block.lineless] :=
  reads_pure (by rw [Node.lineless_ofBlock])

/-- A named block is defined with its content. -/
theorem reads_defineBlock (name : String) (mode : BlockMode) (content : Block BlockId Draft) :
    Reads (fun node : Draft => [node.lineless])
      (do
        let props := { content.props with mode, filename := template.filename }
        let block ← assemble (defineBlock name { content with props } template.owner)
        return .ofBlock block)
      (pure ()) fun _ =>
        Construct.finish template .nothing [.ofBlock content.lineless] (.named name mode) := by
  let props := { content.props with mode, filename := template.filename }
  have hlike : Block.Like { content with props } { content.lineless with props } :=
    (Block.lineless_lineless { content with props }).symm
  have hdefine := reads_assemble <| matches_of_mirrors
    (mirrors_defineBlock name template.owner hlike)
    (mirrors_defineBlock name template.owner hlike.symm) fun _ _ hsame => hsame
  exact hdefine.close (fun block => pure [Node.ofBlock block]) reads_ofBlock

/-- A mixin definition is entered into the table. -/
theorem reads_enterMixin (name : String) (definition : Draft) :
    Reads (fun _ => [definition.lineless])
      (modifyAssembly fun assembly =>
        { assembly with mixins := assembly.mixins.insert name definition })
      (pure ()) fun _ => do
        Construct.enterMixin name definition.lineless
        return [definition.lineless] := by
  intro progress
  have hmixins : linelessMixins (progress.assembly.mixins.insert name definition)
      = (linelessMixins progress.assembly.mixins).insert name definition.lineless :=
    OrderedMap.mapValues_insert _ _ _ _
  show some ([definition.lineless], progress.cursor, Site.mk progress.layout
      { progress.assembly.plain with
        mixins := linelessMixins (progress.assembly.mixins.insert name definition) }) = _
  rw [hmixins]
  rfl

/-- A mixin is defined with its body. -/
theorem reads_defineMixin (name : String) (args : Option String) (line : Int)
    (body : Block BlockId Draft) :
    Reads (fun node : Draft => [node.lineless])
      (do
        let definition ← newNode line (.mixin { name } args false) [body]
        modifyAssembly fun assembly =>
          { assembly with mixins := assembly.mixins.insert name definition }
        return definition)
      (pure ()) fun _ =>
        Construct.finish template .nothing [.ofBlock body.lineless] (.mixin name args) := by
  refine (reads_newNode line (.mixin { name } args false) [body] none).close
    (fun definition => do
      Construct.enterMixin name definition
      return [definition]) fun definition => ?_
  have hpure : Unit → Reads (fun node : Draft => [node.lineless]) (pure definition) (pure ())
      fun _ => pure [definition.lineless] := fun _ => reads_pure rfl
  simpa using (reads_enterMixin name definition).close pure hpure

section Statements

variable {inner : Parse Draft} {scan : Scan Phrase} (h : ReadsPhrase template inner scan)
include h

theorem reads_blockStatement :
    ReadsPhrase template (blockStatement template inner) (Scan.blockStatement scan) := by
  refine (lexical_expect _ template).andThen fun token => ?_
  have hcontent : ReadsBody template (namedContent template inner token.line)
      (Scan.namedContent scan) :=
    (lexical_isAt _ template).andThen fun _ => .ite (reads_body h) (reads_emptyContent token.line)
  exact (hcontent.close
    (fun nodes => Construct.finish template .nothing nodes
      (.named (trimmedTarget token.value) (modeOf token)))
    (reads_defineBlock (trimmedTarget token.value) (modeOf token))).map
      (fun content => Phrase.make (.named (trimmedTarget token.value) (modeOf token)) [content])
      fun content => evaluate_named _ _ content

theorem reads_mixinStatement :
    ReadsPhrase template (mixinStatement template inner) (Scan.mixinStatement scan) := by
  refine (lexical_expect _ template).andThen fun token =>
    (lexical_isAt _ template).andThen fun _ => .ite ?_ ?_
  · exact ((reads_body h).close
      (fun nodes => Construct.finish template .nothing nodes (.mixin token.value _))
      (reads_defineMixin token.value _ token.line)).map
        (fun content => Phrase.make (.mixin token.value _) [content])
        fun content => evaluate_mixin _ _ content
  · exact reads_leaf (.mixin { name := token.value } _ true) token.line

end Statements

/-! ## Layouts -/

theorem reads_extendsStatement :
    ReadsPhrase template (extendsStatement template) Scan.extendsStatement := by
  refine (lexical_expect _ template).andThen fun token => .given ?_
  rw [evaluate_make, evaluateAll_nil]
  intro progress
  show _ = Option.bind (Option.bind (Construct.beginExtends template token.value progress.site) _) _
  unfold Construct.beginExtends Template.layout?
  cases template.filename with
  | none =>
      show none = _
      split <;> rfl
  | some filename =>
      dsimp only [Option.bind_eq_bind, Option.bind_some]
      generalize resolvePath template.config.extension filename token.value = path
      show outcome _ ((if progress.layout.isSome = true then _ else _ : Parse Draft) progress)
        = Option.bind (Option.bind (if progress.layout.isSome = true then _ else _) _) _
      cases hlayout : progress.layout with
      | some layout => rfl
      | none =>
          unfold checkCycle load
          cases hcycle : template.lineage.contains path with
          | true => rfl
          | false =>
              cases hload : template.config.activeLoader.load path with
              | error fault => rfl
              | ok text => rfl

/-! ## Includes -/

theorem reads_checkCycle (path : String) (line : Int) :
    Reads id (checkCycle template path line) (pure ()) fun _ => uncycled template path := by
  intro progress
  show _ = Option.bind (uncycled template path progress.site) _
  unfold checkCycle uncycled
  cases template.lineage.contains path <;> rfl

theorem reads_tell (channel message : String) :
    Reads id (tell channel message) (pure ()) fun _ => pure () :=
  fun _ => rfl

theorem reads_load (path : String) (line : Int) :
    Reads id (load template path line) (pure ()) fun _ => loaded template path := by
  intro progress
  unfold load
  show _ = Option.bind (loaded template path progress.site) _
  unfold loaded
  cases template.config.activeLoader.load path <;> rfl

/-- Composing an included template is the same for assemblies that differ in line numbers. -/
theorem reads_includedRoot (hcompose : Mirroring template.compose) (filename path : String)
    (line : Int) :
    Reads Block.lineless
      (do
        checkCycle template path line
        tell compositionChannel (filename ++ " includes " ++ path)
        let text ← load template path line
        let composed ← assemble
          (composeInclude template { text, filename := some path, lineage := template.lineage })
        assemble (nameRoot path composed.root))
      (pure ()) fun _ => Construct.includedRoot template path := by
  have hname : ∀ composed : Composed, Reads Block.lineless (assemble (nameRoot path composed.root))
      (pure ()) fun _ => plainly Block.lineless (nameRoot path composed.lineless.root) := by
    intro composed
    have hlike : composed.root.Like composed.lineless.root :=
      (Block.lineless_lineless composed.root).symm
    exact reads_assemble <| matches_of_mirrors (mirrors_nameRoot path hlike)
      (mirrors_nameRoot path hlike.symm) fun _ _ hsame => hsame
  have hinclude : ∀ text : String, Reads Composed.lineless
      (assemble (composeInclude template
        { text, filename := some path, lineage := template.lineage }))
      (pure ()) fun _ => plainly Composed.lineless (composeInclude template
        { text, filename := some path, lineage := template.lineage }) := by
    intro text
    have hmirrors := mirrors_composeInclude
      { text, filename := some path, lineage := template.lineage } (hcompose _)
    exact reads_assemble <| matches_of_mirrors hmirrors hmirrors fun _ _ => Composed.Like.lineless
  let compose (text : String) : Evaluate (Block BlockId Draft) := do
    let composed ← plainly Composed.lineless <| composeInclude template
      { text, filename := some path, lineage := template.lineage }
    plainly Block.lineless (nameRoot path composed.root)
  refine (reads_checkCycle path line).close (fun _ => loaded template path >>= compose)
    fun _ => (reads_tell _ _).close (fun _ => loaded template path >>= compose)
      fun _ => (reads_load path line).close compose fun text => ?_
  exact (hinclude text).close (fun composed => plainly Block.lineless (nameRoot path composed.root))
    hname

theorem reads_includeTarget (root : Block BlockId Draft) :
    Reads Block.lineless (assemble (includeTarget root)) (pure ()) fun _ =>
      plainly Block.lineless (includeTarget root.lineless) :=
  have hlike : root.Like root.lineless := root.lineless_lineless.symm
  reads_assemble <| matches_of_mirrors (mirrors_includeTarget hlike)
    (mirrors_includeTarget hlike.symm) fun _ _ hsame => hsame

theorem reads_pushInto (block : Block BlockId Draft) (content : Block BlockId Draft) :
    Reads id (assemble (pushInto block (.ofBlock content))) (pure ()) fun _ =>
      plainly id (pushInto block.lineless (.ofBlock content.lineless)) := by
  have hlike : block.Like block.lineless := block.lineless_lineless.symm
  have hnode : (Node.ofBlock content).Like (.ofBlock content.lineless) :=
    Block.Like.ofBlock content.lineless_lineless.symm
  exact reads_assemble <| matches_of_mirrors (mirrors_pushInto hlike hnode)
    (mirrors_pushInto hlike.symm hnode.symm) fun _ _ _ => rfl

/-- Where the reading and the evaluation fail in any case, the scan does not matter. -/
theorem reads_refused {α β ζ : Type} {erase : α → β} {reader : Parse α} {scan : Scan ζ}
    {evaluate : ζ → Evaluate β} (hreader : ∀ progress, outcome erase (reader progress) = none)
    (h : ∀ scanned site, evaluate scanned site = none) : Reads erase reader scan evaluate := by
  intro progress
  rw [hreader]
  show none = Option.bind (scan progress.cursor) _
  cases scan progress.cursor with
  | none => rfl
  | some scanned =>
      show none = Option.bind (evaluate scanned.1 progress.site) _
      rw [h]
      rfl

/-- The construct of an inclusion, when it has begun. -/
def included (template : Template) (target : String) (parts : List Phrase) (begun : Begun) :
    Evaluate (List Draft) := do
  let nodes ← evaluateAll template parts
  Construct.finish template begun nodes (.include target)

theorem included_nil (target : String) (begun : Begun) :
    included template target [] begun = Construct.finish template begun [] (.include target) := by
  unfold included
  rw [evaluateAll_nil]
  rfl

section Includes

variable {inner : Parse Draft} {scan : Scan Phrase} (h : ReadsPhrase template inner scan)
include h

/-- The content below an inclusion goes into the included tree. -/
theorem reads_includedContent (name : String) (root : Block BlockId Draft) :
    Reads (fun node : Draft => [node.lineless])
      (do
        if ← isAt template .indent then
          let target ← assemble (includeTarget root)
          let content ← indentedBlock template inner
          assemble (pushInto target (.ofBlock content))
        return .ofBlock root)
      (Scan.includedContent scan) fun parts =>
        plainly Block.lineless (includeTarget root.lineless) >>= fun target =>
          included template name parts (.included root.lineless target) := by
  refine (lexical_isAt _ template).andThen fun found => .ite ?_ ?_
  · have hpush : ∀ target content : Block BlockId Draft, Reads (fun node : Draft => [node.lineless])
        (do assemble (pushInto target (.ofBlock content)); return .ofBlock root) (pure ()) fun _ =>
          Construct.finish template (.included root.lineless target.lineless)
            [.ofBlock content.lineless] (.include name) := fun target content =>
      (reads_pushInto target content).close (fun _ => pure [Node.ofBlock root.lineless])
        fun _ => reads_ofBlock root
    have hcontent : ∀ target : Block BlockId Draft, Reads (fun node : Draft => [node.lineless])
        (do
          let content ← indentedBlock template inner
          assemble (pushInto target (.ofBlock content))
          return .ofBlock root)
        (do return [← Scan.body scan]) fun parts =>
          included template name parts (.included root.lineless target.lineless) := by
      intro target
      refine ((reads_body h).close (fun nodes => Construct.finish template
        (.included root.lineless target.lineless) nodes (.include name)) (hpush target)).map
          (fun phrase => [phrase]) fun phrase => ?_
      rw [included, evaluateAll_singleton]
    exact (reads_includeTarget root).first
      (fun parts target => included template name parts (.included root.lineless target)) hcontent
  · -- looking for the block that takes the content changes nothing
    refine .given fun progress => ?_
    simp only [included_nil]
    show some ([Node.lineless (.ofBlock root)], progress.cursor, progress.site)
      = some ([.ofBlock root.lineless], progress.cursor,
        Site.mk progress.layout progress.assembly.plain.plain)
    rw [Assembly.plain_plain, Node.lineless_ofBlock]
    rfl

theorem reads_includeTemplate (hcompose : Mirroring template.compose)
    (filename path name : String) (line : Int) :
    Reads (fun node : Draft => [node.lineless])
      (includeTemplate template inner filename path line) (Scan.includedContent scan) fun parts =>
        Construct.beginTemplate template path >>= included template name parts := by
  have hwhole := (reads_includedRoot hcompose filename path line).first
    (fun parts root => plainly Block.lineless (includeTarget root) >>= fun target =>
      included template name parts (.included root target)) (reads_includedContent h name)
  simpa only [includeTemplate, Construct.beginTemplate, bind_assoc, pure_bind] using hwhole

omit h in
/-- The text of a file takes no content. -/
theorem reads_includeLiteral (filename path name : String) (line : Int) :
    Reads (fun node : Draft => [node.lineless]) (includeLiteral template filename path line)
      (Scan.includedContent scan) fun parts =>
        loaded template path >>= fun text => included template name parts (.literal text) := by
  have hpeek : Scan.includedContent scan = Scan.of peek >>= fun token =>
      if token.kind == .indent then (do return [← Scan.body scan]) else pure [] := by
    have hisAt : Scan.of (isAt · .indent) = Scan.of peek >>= fun token =>
        Scan.of fun _ => (pure (token.kind == .indent) : Parse Bool) :=
      of_bind peek fun _ => lexical_pure _
    rw [Scan.includedContent, hisAt, bind_assoc]
    rfl
  have hbody : ∀ (text : String) (phrases : List Phrase) (site : Site),
      included template name [.make (.body {}) phrases] (.literal text) site = none := by
    intro text phrases site
    unfold included
    rw [evaluateAll_singleton, evaluate_body]
    show Option.bind (Option.bind (evaluateAll template phrases site) _) _ = none
    cases evaluateAll template phrases site <;> rfl
  have hrest : ∀ text : String, Reads (fun node : Draft => [node.lineless])
      (do
        let token ← peek template
        if token.kind == .indent then fail template (.indentedLiteral path) token.line
        newNode line (.literal text))
      (Scan.includedContent scan) fun parts => included template name parts (.literal text) := by
    intro text
    rw [hpeek]
    refine (lexical_peek template).andThen fun token => .ite ?_ (.given ?_)
    · suffices hlines : Reads (fun node : Draft => [node.lineless])
          ((fail template (.indentedLiteral path) token.line : Parse PUnit) >>= fun _ =>
            newNode line (.literal text))
          (Scan.indented scan >>= fun phrases => pure [Phrase.make (.body {}) phrases])
          fun parts => included template name parts (.literal text) by
        simpa only [Scan.body, bind_assoc, pure_bind] using hlines
      have hrefused : Reads (fun node : Draft => [node.lineless])
          ((fail template (.indentedLiteral path) token.line : Parse PUnit) >>= fun _ =>
            newNode line (.literal text))
          (Scan.indented scan)
          fun phrases => included template name [.make (.body {}) phrases] (.literal text) :=
        reads_refused (fun _ => rfl) (hbody text)
      exact hrefused.map _ fun _ => rfl
    · rw [included_nil]
      exact reads_nodeOf (.literal text) line []
  exact (reads_tell _ _).first
    (fun parts (_ : PUnit) => loaded template path >>= fun text =>
      included template name parts (.literal text))
    fun _ => (reads_load path line).first
      (fun parts text => included template name parts (.literal text)) hrest

theorem reads_includeStatement (hcompose : Mirroring template.compose) :
    ReadsPhrase template (includeStatement template inner) (Scan.includeStatement scan) := by
  refine (lexical_expect _ template).andThen fun token => ?_
  have hparts : ∀ reader : Parse Draft, Reads (fun node : Draft => [node.lineless]) reader
      (Scan.includedContent scan) (fun parts =>
        Construct.beginInclude template token.value >>= included template token.value parts) →
      ReadsPhrase template reader
        (do return .make (.include token.value) (← Scan.includedContent scan)) := fun _ hreads =>
    hreads.map (Phrase.make (.include token.value)) fun parts => evaluate_make _ _ _
  refine hparts _ ?_
  unfold Construct.beginInclude
  cases template.filename with
  | none => exact reads_refused (fun _ => rfl) fun _ _ => rfl
  | some filename =>
      dsimp only
      generalize resolvePath template.config.extension filename token.value = path
      by_cases htemplate : isTemplatePath template.config.extension path = true
      · simp only [if_pos htemplate]
        exact reads_includeTemplate h hcompose filename path token.value token.line
      · simp only [if_neg htemplate, bind_assoc, pure_bind]
        exact reads_includeLiteral filename path token.value token.line

end Includes

/-! ## Statements -/

theorem reads_statementStep {inner : Parse Draft} {scan : Scan Phrase}
    (hcompose : Mirroring template.compose) (h : ReadsPhrase template inner scan) :
    ReadsPhrase template (statementStep template inner) (Scan.statementStep scan) := by
  refine (lexical_peek template).andThen fun token => ?_
  cases token.kind with
  | tag => exact reads_tagStatement h
  | mixin => exact reads_mixinStatement h
  | block => exact reads_blockStatement h
  | case => exact reads_caseStatement h
  | when => exact reads_whenStatement h
  | default => exact reads_defaultStatement h
  | «extends» => exact reads_extendsStatement
  | «include» => exact reads_includeStatement h hcompose
  | doctype => exact reads_doctypeStatement
  | filter => exact reads_filterStatement
  | comment => exact reads_commentStatement h
  | text => exact reads_textLine
  | each => exact reads_eachStatement h
  | code => exact reads_codeStatement h
  | call => exact reads_callStatement h
  | interpolation => exact reads_interpolatedStatement h
  | yield => exact reads_yieldStatement
  | idName => exact reads_shorthandStatement h
  | className => exact reads_shorthandStatement h
  | _ => exact reads_fail _ _

theorem reads_statementWith (hcompose : Mirroring template.compose) (fuel : Nat) :
    ReadsPhrase template (statementWith template fuel) (Scan.statementWith fuel) := by
  induction fuel with
  | zero => exact reads_throw _
  | succ fuel ih => exact reads_statementStep hcompose ih

/-- **Reading a template is scanning its phrases, and evaluating them.** -/
theorem reads_document (hcompose : Mirroring template.compose) :
    Reads (List.map Node.lineless) (document template) Scan.document (evaluateAll template) :=
  (lexical_tokenBound template).andThen fun bound =>
    reads_statements (reads_statementWith hcompose (2 * bound)) .eos

end Stencil.Parse
