import Stencil.Proofs.Placement.Drawn

/-! # Statements draw — every production of the grammar

    Each production takes tokens, which draws nothing, reads the parts of a
    statement, each of which draws what is in it, and puts them below new nodes.
    So a reader of statements draws one node for each, whatever the fuel
    (`draws_statementWith`), and a template draws the nodes of its tree
    (`draws_document`).  Only an included template is not drawn: it is composed
    on its own, and that is told by the number of templates. -/

namespace Stencil.Placement

open Parse

variable {owner : Nat} {template : Template} {statement : Parse Draft}

/-! ## Bodies -/

theorem draws_statementsWith (h : DrawsNode owner statement) (stop : TokenKind) (fuel : Nat) :
    Draws owner (statementsWith template statement stop fuel) (fun _ => []) fun nodes => nodes := by
  induction fuel with
  | zero => exact fun _ _ _ => ensures_throw _
  | succ fuel ih =>
      intro start taken nodes
      refine quiet_peek.andThen fun token => .ite ?_ (.ite ?_ ?_)
      · refine ensures_pure fun _ _ hheld => ?_
        rwa [List.append_nil]
      · exact quiet_drop.andThen fun _ => ih start taken nodes
      · refine (h start taken nodes).bind fun node => ?_
        refine (ih start taken (nodes ++ [node])).bind fun more => ?_
        refine ensures_pure fun _ _ hheld => ?_
        rwa [List.append_assoc] at hheld

theorem draws_statements (h : DrawsNode owner statement) (stop : TokenKind) :
    Draws owner (statements template statement stop) (fun _ => []) fun nodes => nodes :=
  fun start taken nodes =>
    quiet_tokenBound.andThen fun fuel => draws_statementsWith h stop fuel start taken nodes

theorem draws_indentedBlock (h : DrawsNode owner statement) :
    DrawsBlock owner (indentedBlock template statement) := by
  intro start taken nodes
  refine (quiet_expect _).andThen fun token => ?_
  refine (draws_statements h _ start taken nodes).bind fun content => ?_
  refine (quiet_expect _).discard.andThen fun _ => ?_
  exact ensures_blockOf _ content _

theorem draws_rawLinesWith {deeper : Parse (Block BlockId Draft)} (h : DrawsBlock owner deeper)
    (indent fuel : Nat) :
    Draws owner (rawLinesWith template deeper indent fuel) (fun _ => []) fun nodes => nodes := by
  induction fuel with
  | zero => exact fun _ _ _ => ensures_throw _
  | succ fuel ih =>
      intro start taken nodes
      refine quiet_peek.andThen fun token => ?_
      split
      · refine ensures_pure fun _ _ hheld => ?_
        rwa [List.append_nil]
      · exact quiet_drop.andThen fun _ => ih start taken nodes
      · refine (h start taken nodes).bind fun block => ?_
        -- the lines of a body inside this one go on with it, and its block is not used
        refine Ensures.of_imp (fun _ _ hheld => hheld.drop (List.subperm_cons_self ..)) ?_
        refine (ih start taken (nodes ++ block.nodes)).bind fun more => ?_
        refine ensures_pure fun _ _ hheld => ?_
        rwa [List.append_assoc] at hheld
      · refine quiet_advance.andThen fun line => ?_
        refine (ensures_newLeaf _ fun _ _ => rfl).bind fun node => ?_
        refine (ih start taken (nodes ++ [node])).bind fun more => ?_
        refine ensures_pure fun _ _ hheld => ?_
        rwa [List.append_assoc] at hheld

theorem draws_rawBlockWith (fuel : Nat) : DrawsBlock owner (rawBlockWith template fuel) := by
  induction fuel with
  | zero => exact fun _ _ _ => ensures_throw _
  | succ fuel ih =>
      intro start taken nodes
      refine (quiet_expect _).andThen fun token => quiet_get.andThen fun progress => ?_
      show Ensures _ (modify _ >>= _) _
      refine Quiet.andThen (quiet_modify fun _ => ?_) fun _ => ?_
      · exact ⟨rfl, rfl, rfl, rfl⟩
      refine quiet_tokenBound.andThen fun bound => ?_
      refine (draws_rawLinesWith ih _ bound start taken nodes).bind fun content => ?_
      refine (quiet_modify fun after => ?_).andThen fun _ => ?_
      · split
        · exact ⟨rfl, rfl, rfl, rfl⟩
        · exact .refl _
      refine (quiet_expect _).discard.andThen fun _ => ?_
      exact ensures_blockOf _ content _

theorem draws_rawBlock : DrawsBlock owner (rawBlock template) := by
  intro start taken nodes
  refine (quiet_setMode _).andThen fun _ => quiet_tokenBound.andThen fun bound => ?_
  refine (draws_rawBlockWith bound start taken nodes).bind fun block => ?_
  exact (quiet_setMode _).andThen fun _ => ensures_pure fun _ _ hheld => hheld

/-! ## Lines with a head -/

theorem draws_textLine : DrawsNode owner (textLine template) := fun _ _ _ =>
  (quiet_expect _).andThen fun _ => ensures_newLeaf _ fun _ _ => rfl

theorem draws_armBody (h : DrawsNode owner statement) :
    DrawsBlock owner (armBody template statement) := by
  intro start taken nodes
  refine quiet_peek.andThen fun token => .ite ?_ (draws_indentedBlock h start taken nodes)
  refine quiet_drop.andThen fun _ => (h start taken nodes).bind fun node => ?_
  exact ensures_blockOf _ [node] _

/-- A head, and a block below it. -/
theorem draws_headed {kind : TokenKind} {body : Parse (Block BlockId Draft)}
    (h : DrawsBlock owner body) (result : Token → Kind BlockId)
    (hkind : ∀ token own line children, (Node.make own line (result token) children).id? = own) :
    DrawsNode owner (expect template kind >>= fun token =>
      body >>= fun block => newNode token.line (result token) [block]) := by
  intro start taken nodes
  refine (quiet_expect _).andThen fun token => (h start taken nodes).bind fun block => ?_
  exact ensures_newNode_block _ (hkind token · token.line)

theorem draws_caseStatement (h : DrawsNode owner statement) :
    DrawsNode owner (caseStatement template statement) :=
  draws_headed (draws_indentedBlock h) (fun token => .case token.value) fun _ _ _ _ => rfl

theorem draws_whenStatement (h : DrawsNode owner statement) :
    DrawsNode owner (whenStatement template statement) :=
  draws_headed (draws_armBody h) (fun token => .when token.value) fun _ _ _ _ => rfl

theorem draws_defaultStatement (h : DrawsNode owner statement) :
    DrawsNode owner (defaultStatement template statement) :=
  draws_headed (draws_armBody h) (fun _ => .when "default") fun _ _ _ _ => rfl

theorem codeKind_id? (token : Token) (own : Option BlockId) (line : Int) (children : List Draft) :
    (Node.make own line (codeKind token) children).id? = own := by
  unfold codeKind
  split <;> rfl

theorem draws_codeStatement (h : DrawsNode owner statement) :
    DrawsNode owner (codeStatement template statement) := by
  intro start taken nodes
  refine (quiet_expect _).andThen fun token => quiet_tokenBound.andThen fun bound => ?_
  refine (quiet_newlinesFrom bound 0).andThen fun breaks => ?_
  refine (quiet_peekAt breaks).andThen fun after => .ite ?_ ?_
  · refine (quiet_skip breaks).andThen fun _ => ?_
    refine (draws_indentedBlock h start taken nodes).bind fun block => ?_
    exact ensures_newNode_block _ (codeKind_id? token · token.line)
  · exact ensures_newLeaf _ (codeKind_id? token · token.line)

theorem eachKind_id? (token : Token) (own : Option BlockId) (line : Int) (children : List Draft) :
    (Node.make own line (eachKind token) children).id? = own := by
  unfold eachKind
  split <;> rfl

theorem draws_eachStatement (h : DrawsNode owner statement) :
    DrawsNode owner (eachStatement template statement) := by
  intro start taken nodes
  refine (quiet_expect _).andThen fun token => ?_
  refine (draws_indentedBlock h start taken nodes).bind fun body => ?_
  refine quiet_peek.andThen fun after => .ite ?_ ?_
  · -- the body is closed before the block for an empty source is read
    refine Ensures.of_imp (fun _ _ hheld => hheld.close) ?_
    refine quiet_drop.andThen fun _ => ?_
    refine (draws_indentedBlock h start taken (nodes ++ [.ofBlock body])).bind
      fun alternative => ?_
    refine Ensures.of_imp (fun _ _ hheld => ?_)
      (ensures_newNode _ (eachKind_id? token · token.line))
    have hclosed := hheld.close
    rwa [List.append_assoc] at hclosed
  · exact ensures_newNode_block _ (eachKind_id? token · token.line)

theorem draws_commentStatement (h : DrawsNode owner statement) :
    DrawsNode owner (commentStatement template statement) := by
  intro start taken nodes
  refine (quiet_expect _).andThen fun token => (quiet_isAt _).andThen fun _ => .ite ?_ ?_
  · refine (draws_indentedBlock h start taken nodes).bind fun body => ?_
    exact ensures_newNode_block _ fun _ _ => rfl
  · exact ensures_newLeaf _ fun _ _ => rfl

theorem draws_doctypeStatement : DrawsNode owner (doctypeStatement template) := fun _ _ _ =>
  (quiet_expect _).andThen fun _ => ensures_newLeaf _ fun _ _ => rfl

theorem draws_filterStatement : DrawsNode owner (filterStatement template) := by
  intro start taken nodes
  refine (quiet_expect _).andThen fun token => quiet_peek.andThen fun after => ?_
  have hbody : ∀ attributes, Ensures (Held owner start taken nodes)
      (rawBlock template >>= fun body =>
        newNode token.line (.filter token.value attributes) [body])
      fun node => Held owner start taken (nodes ++ [node]) := fun attributes =>
    (draws_rawBlock start taken nodes).bind fun body =>
      ensures_newNode_block _ fun _ _ => rfl
  exact .ite (quiet_drop.andThen fun _ => (quiet_pure _).andThen hbody)
    ((quiet_pure _).andThen hbody)

theorem draws_yieldStatement : DrawsNode owner (yieldStatement template) := by
  intro start taken nodes
  refine (quiet_expect _).andThen fun token => ?_
  refine ensures_newBlock _ _ _ fun id => ensures_pure fun _ _ hheld => Held.close ?_
  rwa [List.append_nil]

/-! ## Elements -/

section Elements

variable {start : Book} {taken : List BlockId} {nodes : List Draft}

/-- The content on the line of an element, which had none before. -/
theorem ensures_readLineContent (h : DrawsNode owner statement) {opened : OpenElement}
    (hcode : opened.code = none) (hbody : opened.body.nodes = []) :
    Ensures (Held owner start (opened.body.id :: taken) nodes)
      (readLineContent template statement opened) fun result =>
        Held owner start (result.body.id :: taken)
          (nodes ++ (result.code.toList ++ result.body.nodes)) := by
  refine quiet_peek.andThen fun token => ?_
  split
  · refine (draws_textLine start _ nodes).bind fun text => ensures_pure fun _ _ hheld => ?_
    simpa [hcode, hbody] using hheld
  · refine (draws_codeStatement h start _ nodes).bind fun code =>
      ensures_pure fun _ _ hheld => ?_
    simpa [hbody] using hheld
  · refine quiet_drop.andThen fun _ => (h start _ nodes).bind fun node => ?_
    -- the block of the statement behind the colon takes the place of the empty one
    refine ensures_newBlock _ [node] _ fun id => ensures_pure fun _ _ hheld => ?_
    simpa [hcode] using hheld.drop ((List.sublist_cons_self ..).cons_cons id).subperm
  · refine ensures_pure fun _ _ hheld => ?_
    simpa [hcode, hbody] using hheld

/-- An indented body goes behind the content on the line, in one block. -/
theorem Held.joinBody {opened : OpenElement} (body : Block BlockId Draft) {store : Store Draft}
    {registry : Registry Draft}
    (h : Held owner start (body.id :: opened.body.id :: taken)
      (nodes ++ (opened.code.toList ++ opened.body.nodes) ++ body.nodes) store registry) :
    Held owner start ((Parse.joinBody opened body).body.id :: taken)
      (nodes ++ ((Parse.joinBody opened body).code.toList
        ++ (Parse.joinBody opened body).body.nodes)) store registry := by
  unfold Parse.joinBody
  split
  · next hempty =>
      rw [List.isEmpty_iff.mp hempty] at h
      simpa using h.drop ((List.sublist_cons_self ..).cons_cons body.id).subperm
  · simpa using h.drop (List.subperm_cons_self ..)

theorem ensures_readBody (h : DrawsNode owner statement) (opened : OpenElement) :
    Ensures (Held owner start (opened.body.id :: taken)
        (nodes ++ (opened.code.toList ++ opened.body.nodes)))
      (readBody template statement opened) fun result =>
        Held owner start (result.body.id :: taken)
          (nodes ++ (result.code.toList ++ result.body.nodes)) := by
  refine (quiet_isAt _).andThen fun _ => .ite (.ite ?_ ?_) (ensures_pure fun _ _ => id)
  · refine (draws_rawBlock start _ _).bind fun body => ensures_pure fun _ _ hheld => ?_
    exact Held.joinBody { body with props := { body.props with textOnly := true } } hheld
  · exact (draws_indentedBlock h start _ _).bind fun body =>
      ensures_pure fun _ _ => Held.joinBody body

end Elements

theorem draws_readElement (h : DrawsNode owner statement) (element : Element) :
    Draws owner (readElement template statement element) (fun opened => [opened.body.id])
      fun opened => opened.code.toList ++ opened.body.nodes := by
  intro start taken nodes
  refine ensures_newBlock 0 [] _ fun id => ?_
  refine Quiet.andThen (quiet_readAttributes element) fun element => ?_
  refine quiet_takeDot.andThen fun dot => (ensures_readLineContent h rfl rfl).bind fun opened => ?_
  exact quiet_skipNewlines.andThen fun _ => ensures_readBody h { opened with element := _ }

/-- A node around the inline code and the body of an element. -/
theorem ensures_newNode_opened {start : Book} {taken : List BlockId} {nodes : List Draft}
    (line : Int) {kind : Kind BlockId} (opened : OpenElement)
    (hkind : ∀ own children, (Node.make own line kind children).id? = own) :
    Ensures (Held owner start ([opened.body.id] ++ taken)
        (nodes ++ (opened.code.toList ++ opened.body.nodes)))
      (newNode line kind [opened.body] opened.code) fun node =>
        Held owner start taken (nodes ++ [node]) := by
  refine Ensures.of_imp (fun _ _ hheld => ?_) (ensures_newNode line hkind)
  rw [← List.append_assoc] at hheld ⊢
  exact hheld.close

theorem draws_tagStatement (h : DrawsNode owner statement) :
    DrawsNode owner (tagStatement template statement) := by
  intro start taken nodes
  refine (quiet_expect _).andThen fun token => ?_
  refine (draws_readElement h _ start taken nodes).bind fun opened => ?_
  exact ensures_newNode_opened _ opened fun _ _ => rfl

theorem draws_interpolatedStatement (h : DrawsNode owner statement) :
    DrawsNode owner (interpolatedStatement template statement) := by
  intro start taken nodes
  refine (quiet_expect _).andThen fun token => ?_
  refine (draws_readElement h _ start taken nodes).bind fun opened => ?_
  exact ensures_newNode_opened _ opened fun _ _ => rfl

theorem draws_callStatement (h : DrawsNode owner statement) :
    DrawsNode owner (callStatement template statement) := by
  intro start taken nodes
  refine (quiet_expect _).andThen fun token => ?_
  refine (draws_readElement h _ start taken nodes).bind fun opened => ?_
  show Ensures _ (newNode _ _ (if opened.body.nodes.isEmpty then [] else [opened.body]) _) _
  split
  · next hempty =>
      -- an empty body counts as none, and its block is not used
      refine Ensures.of_imp (fun _ _ hheld => ?_) (ensures_newNode _ fun _ _ => rfl)
      beta_reduce at hheld
      rw [List.isEmpty_iff.mp hempty] at hheld
      exact hheld.drop (List.subperm_cons_self ..)
  · exact ensures_newNode_opened _ opened fun _ _ => rfl

theorem draws_shorthandStatement (h : DrawsNode owner statement) :
    DrawsNode owner (shorthandStatement template statement) := fun start taken nodes =>
  quiet_advance.andThen fun _ => (quiet_defer _).andThen fun _ => h start taken nodes

/-! ## Composition -/

theorem draws_namedContent (h : DrawsNode owner statement) (line : Int) :
    DrawsBlock owner (namedContent template statement line) := by
  intro start taken nodes
  refine (quiet_isAt _).andThen fun _ => .ite (draws_indentedBlock h start taken nodes) ?_
  exact (ensures_newLeaf _ fun _ _ => rfl).bind fun node => ensures_blockOf _ [node] _

/-- A named block is drawn as the block that is there to be placed; its own content is told from
    the start of the statement, so that the mentions inside it are known. -/
theorem draws_blockStatement (h : DrawsNode template.owner statement) :
    DrawsNode template.owner (blockStatement template statement) := by
  refine draws_of_start fun start => ?_
  refine (quiet_expect _).andThen fun token => ?_
  refine ((draws_namedContent h token.line).from start).bind fun content => ?_
  refine Ensures.bind (ensures_assemble ?_) fun block => ensures_pure fun _ _ => id
  rintro assembly block after ⟨⟩
  refine ⟨Nat.le_refl _, ?_⟩
  rintro - ⟨tops, ledger, hdrawn⟩
  let props := { content.props with mode := modeOf token, filename := template.filename }
  exact ⟨_, _, hdrawn.named (trimmedTarget token.value) { content with props }⟩

theorem draws_mixinStatement (h : DrawsNode owner statement) :
    DrawsNode owner (mixinStatement template statement) := by
  intro start taken nodes
  refine (quiet_expect _).andThen fun token => (quiet_isAt _).andThen fun _ => .ite ?_ ?_
  · refine (draws_indentedBlock h start taken nodes).bind fun body => ?_
    refine (ensures_newNode_block _ fun _ _ => rfl).bind fun definition => ?_
    refine Ensures.bind (ensures_modifyAssembly fun assembly => ?_) fun _ =>
      ensures_pure fun _ _ => id
    exact ⟨rfl, rfl, rfl⟩
  · exact ensures_newLeaf _ fun _ _ => rfl

theorem draws_extendsStatement : DrawsNode owner (extendsStatement template) := by
  intro start taken nodes
  refine (quiet_expect _).andThen fun token => ?_
  split
  · exact ensures_fail _ _
  · refine quiet_get.andThen fun progress => ?_
    refine Ensures.ite ((quiet_fail _ _).andThen fun _ => ?_) ?_
    all_goals
      refine (quiet_checkCycle _ _).andThen fun _ => (quiet_tell _ _).andThen fun _ => ?_
      refine (quiet_load _ _).andThen fun text => ?_
      refine Quiet.andThen (quiet_modify fun _ => ?_) fun _ => ensures_newLeaf _ fun _ _ => rfl
      exact ⟨rfl, rfl, rfl, rfl⟩

/-- Whatever composes templates counts those it reads. -/
def Counts (compose : Source → Assemble Composed) : Prop :=
  ∀ source assembly composed after, compose source assembly = .ok composed after →
    assembly.templates < after.templates

/-- An included template is counted. -/
theorem ensures_composeInclude (hcounts : Counts template.compose) {pre : Condition}
    (source : Source) :
    Ensures pre (assemble (composeInclude template source)) fun _ _ _ => False := by
  refine ensures_assemble fun assembly composed after hrun => ?_
  let snapshot := assembly.registry.snapshot assembly.store
  let copied := { assembly with store := snapshot.1, registry := snapshot.2 }
  replace hrun : (template.compose source >>= fun composed => do
      modify fun after => { after with registry := assembly.registry }
      return composed) copied = .ok composed after := hrun
  obtain ⟨result, final, hcompose, hrest⟩ := bind_eq_ok hrun
  cases hrest
  have hlt : assembly.templates < final.templates := hcounts source copied _ final hcompose
  exact ⟨Nat.le_of_lt hlt, fun hsame => absurd hsame (Nat.ne_of_gt hlt)⟩

/-- What follows the composing of an included template forgets no template. -/
theorem ensures_include (h : DrawsNode owner statement) {path : String}
    (root : Block BlockId Draft) :
    Ensures (fun _ _ => False) (do
        let root ← assemble (nameRoot path root)
        if ← isAt template .indent then
          let target ← assemble (includeTarget root)
          let content ← indentedBlock template statement
          assemble (pushInto target (.ofBlock content))
        return Node.ofBlock root) fun _ _ _ => False := by
  have hassemble : ∀ {β : Type} {action : Assemble β},
      (∀ assembly result after, action assembly = .ok result after →
        after.templates = assembly.templates) →
      Ensures (fun _ _ => False) (assemble action) fun _ _ _ => False := by
    intro β action hsame
    refine ensures_assemble fun assembly result after hrun => ?_
    exact ⟨Nat.le_of_eq (hsame _ _ _ hrun).symm, fun _ => False.elim⟩
  have hbody : Ensures (fun _ _ => False) (indentedBlock template statement)
      fun _ _ _ => False := (draws_indentedBlock h {} [] []).absurd
  refine (hassemble ?_).bind fun named => (quiet_isAt _).andThen fun _ => .ite ?_ ?_
  · rintro assembly result after ⟨⟩
    rfl
  · refine (hassemble ?_).bind fun target => hbody.bind fun content => ?_
    · rintro assembly result after ⟨⟩
      rfl
    · refine (hassemble ?_).bind fun _ => ensures_pure fun _ _ => id
      rintro assembly result after ⟨⟩
      rfl
  · exact ensures_pure fun _ _ => id

theorem draws_includeStatement (h : DrawsNode owner statement)
    (hcounts : Counts template.compose) :
    DrawsNode owner (includeStatement template statement) := by
  intro start taken nodes
  refine (quiet_expect _).andThen fun token => ?_
  split
  · exact ensures_fail _ _
  · refine Ensures.ite ?_ ?_
    · refine (quiet_checkCycle _ _).andThen fun _ => (quiet_tell _ _).andThen fun _ => ?_
      refine (quiet_load _ _).andThen fun text => ?_
      refine (ensures_composeInclude hcounts _).bind fun composed => ?_
      exact (ensures_include h _).imp (fun _ _ => id) fun _ _ _ => False.elim
    · refine (quiet_tell _ _).andThen fun _ => (quiet_load _ _).andThen fun text => ?_
      refine quiet_peek.andThen fun after => ?_
      refine Ensures.ite ((quiet_fail _ _).andThen fun _ => ?_) ?_
      all_goals exact ensures_newLeaf _ fun _ _ => rfl

/-- A statement draws a node when the statements inside it do. -/
theorem draws_statementStep (h : DrawsNode template.owner statement)
    (hcounts : Counts template.compose) :
    DrawsNode template.owner (statementStep template statement) := by
  intro start taken nodes
  refine quiet_peek.andThen fun token => ?_
  split
  · exact draws_tagStatement h start taken nodes
  · exact draws_mixinStatement h start taken nodes
  · exact draws_blockStatement h start taken nodes
  · exact draws_caseStatement h start taken nodes
  · exact draws_whenStatement h start taken nodes
  · exact draws_defaultStatement h start taken nodes
  · exact draws_extendsStatement start taken nodes
  · exact draws_includeStatement h hcounts start taken nodes
  · exact draws_doctypeStatement start taken nodes
  · exact draws_filterStatement start taken nodes
  · exact draws_commentStatement h start taken nodes
  · exact draws_textLine start taken nodes
  · exact draws_eachStatement h start taken nodes
  · exact draws_codeStatement h start taken nodes
  · exact draws_callStatement h start taken nodes
  · exact draws_interpolatedStatement h start taken nodes
  · exact draws_yieldStatement start taken nodes
  · exact draws_shorthandStatement h start taken nodes
  · exact draws_shorthandStatement h start taken nodes
  · exact ensures_fail _ _

theorem draws_statementWith (hcounts : Counts template.compose) (fuel : Nat) :
    DrawsNode template.owner (statementWith template fuel) := by
  induction fuel with
  | zero => exact fun _ _ _ => ensures_throw _
  | succ fuel ih => exact draws_statementStep ih hcounts

/-- **A template draws its nodes.** -/
theorem draws_document (hcounts : Counts template.compose) :
    Draws template.owner (document template) (fun _ => []) fun nodes => nodes :=
  fun start taken nodes => quiet_tokenBound.andThen fun bound =>
    draws_statements (draws_statementWith hcounts (2 * bound)) .eos start taken nodes

end Stencil.Placement
