import Stencil.Proofs.Composition.Confined
import Stencil.Proofs.Grammar.Makes

/-! # Origins of composed trees — what templates make, production by production

    The trees that templates are read into are made of new nodes and of those
    that were there: named blocks, mixin definitions and their contents.  So
    composing a template makes trees of nodes from every collection that these
    come from: `makes_statementWith` for statements, whatever the fuel, and
    `makes_composeWith` for whole templates with all they lead to.

    A definition comes from the table into a tree only when a template with a
    layout is composed.  So the statements of a template make trees of nodes from
    a collection in spite of foreign definitions in the table, as long as other
    templates that are composed do (`makes_readStatements`).

    On the way the table of mixins goes on to list each definition once: a
    definition is a new node when it comes into the table
    (`makes_definition`). -/

namespace Stencil

open Node Registry Store Parse

variable {K : BlockId → Prop} {foreign : List Draft} {template : Template} {statement : Parse Draft}

/-- A reader that makes a node. -/
abbrev MakesNode (K : BlockId → Prop) (foreign : List Draft) (reader : Parse Draft) : Prop :=
  Makes Progress.assembly K foreign reader (Node.MadeOf K)

/-- A reader that makes a block. -/
abbrev MakesBlock (K : BlockId → Prop) (foreign : List Draft)
    (reader : Parse (Block BlockId Draft)) : Prop :=
  Makes Progress.assembly K foreign reader fun block => (ofBlock block).MadeOf K

/-- A reader that makes nodes. -/
abbrev MakesNodes (K : BlockId → Prop) (foreign : List Draft) (reader : Parse (List Draft)) :
    Prop :=
  Makes Progress.assembly K foreign reader fun nodes => ∀ node ∈ nodes, node.MadeOf K

/-! ## Bodies -/

theorem makes_statementsWith (h : MakesNode K foreign statement) (stop : TokenKind) (fuel : Nat) :
    MakesNodes K foreign (statementsWith template statement stop fuel) := by
  induction fuel with
  | zero => exact makes_throw _
  | succ fuel ih =>
      refine quiet_peek.make fun token => .ite (makes_pure nofun) (.ite ?_ ?_)
      · exact quiet_drop.make fun _ => ih
      · exact h.bind fun node hnode => ih.bind fun nodes hnodes =>
          makes_pure (List.forall_mem_cons.mpr ⟨hnode, hnodes⟩)

theorem makes_statements (h : MakesNode K foreign statement) (stop : TokenKind) :
    MakesNodes K foreign (statements template statement stop) :=
  quiet_tokenBound.make fun fuel => makes_statementsWith h stop fuel

theorem makes_indentedBlock (h : MakesNode K foreign statement) :
    MakesBlock K foreign (indentedBlock template statement) := by
  refine (quiet_expect _).make fun token => (makes_statements h _).bind fun nodes hnodes => ?_
  exact (quiet_expect _).discard.make fun _ => makes_newBlock _ _ hnodes

theorem makes_rawLinesWith {deeper : Parse (Block BlockId Draft)} (h : MakesBlock K foreign deeper)
    (indent fuel : Nat) : MakesNodes K foreign (rawLinesWith template deeper indent fuel) := by
  induction fuel with
  | zero => exact makes_throw _
  | succ fuel ih =>
      refine quiet_peek.make fun token => ?_
      split
      · exact makes_pure nofun
      · exact quiet_drop.make fun _ => ih
      · exact h.bind fun block hblock => ih.bind fun nodes hnodes =>
          makes_pure (List.forall_mem_append.mpr ⟨(madeOf_ofBlock.mp hblock).2, hnodes⟩)
      · refine quiet_advance.make fun line => ?_
        exact (makes_newLeaf _ fun _ _ => rfl).bind fun node hnode =>
          ih.bind fun nodes hnodes => makes_pure (List.forall_mem_cons.mpr ⟨hnode, hnodes⟩)

theorem makes_rawBlockWith (fuel : Nat) : MakesBlock K foreign (rawBlockWith template fuel) := by
  induction fuel with
  | zero => exact makes_throw _
  | succ fuel ih =>
      refine (quiet_expect _).make fun token => quiet_get.make fun progress => ?_
      show Makes _ _ _ (modify _ >>= _) _
      refine Quiet.make (quiet_modify fun _ => ?_) fun _ => ?_
      · exact ⟨rfl, rfl, rfl, rfl⟩
      refine quiet_tokenBound.make fun bound => ?_
      refine (makes_rawLinesWith ih _ bound).bind fun nodes hnodes => ?_
      refine (quiet_modify fun after => ?_).make fun _ => ?_
      · split
        · exact ⟨rfl, rfl, rfl, rfl⟩
        · exact .refl _
      exact (quiet_expect _).discard.make fun _ => makes_newBlock _ _ hnodes

theorem makes_rawBlock : MakesBlock K foreign (rawBlock template) := by
  refine (quiet_setMode _).make fun _ => quiet_tokenBound.make fun bound => ?_
  exact (makes_rawBlockWith bound).bind fun block hblock =>
    (quiet_setMode _).make fun _ => makes_pure hblock

/-! ## Lines with a head -/

theorem makes_textLine : MakesNode K foreign (textLine template) :=
  (quiet_expect _).make fun _ => makes_newLeaf _ fun _ _ => rfl

theorem makes_armBody (h : MakesNode K foreign statement) :
    MakesBlock K foreign (armBody template statement) :=
  quiet_peek.make fun _ => .ite
    (quiet_drop.make fun _ => h.bind fun _ hnode =>
      makes_newBlock _ _ (List.forall_mem_singleton.mpr hnode))
    (makes_indentedBlock h)

/-- A head, and a block below it. -/
theorem makes_headed {kind : TokenKind} {body : Parse (Block BlockId Draft)}
    (h : MakesBlock K foreign body) (result : Token → Kind BlockId)
    (hkind : ∀ token own line children, (Node.make own line (result token) children).id? = own) :
    MakesNode K foreign (expect template kind >>= fun token =>
      body >>= fun block => newNode token.line (result token) [block]) :=
  (quiet_expect _).make fun token => h.bind fun _ hblock =>
    makes_newNode_block _ (hkind token · token.line) hblock

theorem makes_caseStatement (h : MakesNode K foreign statement) :
    MakesNode K foreign (caseStatement template statement) :=
  makes_headed (makes_indentedBlock h) (fun token => .case token.value) fun _ _ _ _ => rfl

theorem makes_whenStatement (h : MakesNode K foreign statement) :
    MakesNode K foreign (whenStatement template statement) :=
  makes_headed (makes_armBody h) (fun token => .when token.value) fun _ _ _ _ => rfl

theorem makes_defaultStatement (h : MakesNode K foreign statement) :
    MakesNode K foreign (defaultStatement template statement) :=
  makes_headed (makes_armBody h) (fun _ => .when "default") fun _ _ _ _ => rfl

theorem makes_codeStatement (h : MakesNode K foreign statement) :
    MakesNode K foreign (codeStatement template statement) := by
  refine (quiet_expect _).make fun token => quiet_tokenBound.make fun bound => ?_
  refine (quiet_newlinesFrom bound 0).make fun breaks => ?_
  refine (quiet_peekAt breaks).make fun after => .ite ?_ ?_
  · refine (quiet_skip breaks).make fun _ => (makes_indentedBlock h).bind fun block hblock => ?_
    exact makes_newNode_block _ (Placement.codeKind_id? token · token.line) hblock
  · exact makes_newLeaf _ (Placement.codeKind_id? token · token.line)

theorem makes_eachStatement (h : MakesNode K foreign statement) :
    MakesNode K foreign (eachStatement template statement) := by
  refine (quiet_expect _).make fun token => (makes_indentedBlock h).bind fun body hbody => ?_
  refine quiet_peek.make fun after => .ite ?_ ?_
  · refine quiet_drop.make fun _ => (makes_indentedBlock h).bind fun alternative halternative => ?_
    exact makes_newNode _ (Placement.eachKind_id? token · token.line) nofun
      (List.forall_mem_cons.mpr ⟨hbody, List.forall_mem_singleton.mpr halternative⟩)
  · exact makes_newNode_block _ (Placement.eachKind_id? token · token.line) hbody

theorem makes_commentStatement (h : MakesNode K foreign statement) :
    MakesNode K foreign (commentStatement template statement) :=
  (quiet_expect _).make fun _ => (quiet_isAt _).make fun _ => .ite
    ((makes_indentedBlock h).bind fun _ hbody => makes_newNode_block _ (fun _ _ => rfl) hbody)
    (makes_newLeaf _ fun _ _ => rfl)

theorem makes_doctypeStatement : MakesNode K foreign (doctypeStatement template) :=
  (quiet_expect _).make fun _ => makes_newLeaf _ fun _ _ => rfl

theorem makes_filterStatement : MakesNode K foreign (filterStatement template) := by
  refine (quiet_expect _).make fun token => quiet_peek.make fun after => ?_
  have hbody : ∀ attributes, MakesNode K foreign (rawBlock template >>= fun body =>
      newNode token.line (.filter token.value attributes) [body]) := fun attributes =>
    makes_rawBlock.bind fun body hbody => makes_newNode_block _ (fun _ _ => rfl) hbody
  exact .ite (quiet_drop.make fun _ => (quiet_pure _).make hbody) ((quiet_pure _).make hbody)

theorem makes_yieldStatement : MakesNode K foreign (yieldStatement template) :=
  (quiet_expect _).make fun _ =>
    (makes_newBlock _ _ nofun).bind fun _ hblock => makes_pure hblock

/-! ## Elements -/

/-- An element that is being read is made of nodes from a collection. -/
structure Parse.OpenElement.MadeOf (K : BlockId → Prop) (opened : OpenElement) : Prop where
  code : ∀ node ∈ opened.code, node.MadeOf K
  body : (ofBlock opened.body).MadeOf K

theorem makes_readLineContent (h : MakesNode K foreign statement) {opened : OpenElement}
    (hopened : opened.MadeOf K) :
    Makes Progress.assembly K foreign (readLineContent template statement opened)
      (OpenElement.MadeOf K) := by
  obtain ⟨hid, hnodes⟩ := madeOf_ofBlock.mp hopened.body
  refine quiet_peek.make fun token => ?_
  split
  · refine makes_textLine.bind fun text htext => makes_pure ⟨hopened.code, ?_⟩
    exact madeOf_ofBlock.mpr
      ⟨hid, List.forall_mem_append.mpr ⟨hnodes, List.forall_mem_singleton.mpr htext⟩⟩
  · refine (makes_codeStatement h).bind fun code hcode => makes_pure ⟨fun node hnode => ?_, ?_⟩
    · exact Option.some.inj hnode ▸ hcode
    · exact hopened.body
  · refine quiet_drop.make fun _ => h.bind fun node hnode => ?_
    exact (makes_newBlock _ _ (List.forall_mem_singleton.mpr hnode)).bind fun body hbody =>
      makes_pure ⟨hopened.code, hbody⟩
  · exact makes_pure hopened

theorem madeOf_joinBody {opened : OpenElement} {body : Block BlockId Draft}
    (h : opened.MadeOf K) (hbody : (ofBlock body).MadeOf K) : (joinBody opened body).MadeOf K := by
  unfold joinBody
  split
  · exact ⟨h.code, hbody⟩
  · obtain ⟨hid, hnodes⟩ := madeOf_ofBlock.mp h.body
    have hjoined := List.forall_mem_append.mpr ⟨hnodes, (madeOf_ofBlock.mp hbody).2⟩
    exact ⟨h.code, madeOf_ofBlock.mpr ⟨hid, hjoined⟩⟩

theorem makes_readBody (h : MakesNode K foreign statement) {opened : OpenElement}
    (hopened : opened.MadeOf K) :
    Makes Progress.assembly K foreign (readBody template statement opened)
      (OpenElement.MadeOf K) := by
  refine (quiet_isAt _).make fun _ => .ite (.ite ?_ ?_) (makes_pure hopened)
  · exact makes_rawBlock.bind fun body hbody =>
      makes_pure (madeOf_joinBody hopened (hbody.withProps _))
  · exact (makes_indentedBlock h).bind fun body hbody => makes_pure (madeOf_joinBody hopened hbody)

theorem makes_readElement (h : MakesNode K foreign statement) (element : Element) :
    Makes Progress.assembly K foreign (readElement template statement element)
      (OpenElement.MadeOf K) := by
  refine (makes_newBlock 0 _ nofun).bind fun body hbody => ?_
  refine Quiet.make (quiet_readAttributes element) fun element => ?_
  refine quiet_takeDot.make fun dot => ?_
  have hopened : OpenElement.MadeOf K { element, body } := ⟨(fun _ hnode => nomatch hnode), hbody⟩
  refine (makes_readLineContent h hopened).bind fun opened hopened => ?_
  exact quiet_skipNewlines.make fun _ => makes_readBody h ⟨hopened.code, hopened.body⟩

/-- A node around the inline code and the body of an element. -/
theorem makes_newNode_opened (line : Int) {kind : Kind BlockId} {opened : OpenElement}
    (hkind : ∀ own children, (Node.make own line kind children).id? = own)
    (h : opened.MadeOf K) : MakesNode K foreign (newNode line kind [opened.body] opened.code) :=
  makes_newNode line hkind h.code (List.forall_mem_singleton.mpr h.body)

theorem makes_tagStatement (h : MakesNode K foreign statement) :
    MakesNode K foreign (tagStatement template statement) :=
  (quiet_expect _).make fun _ => (makes_readElement h _).bind fun _ hopened =>
    makes_newNode_opened _ (fun _ _ => rfl) hopened

theorem makes_interpolatedStatement (h : MakesNode K foreign statement) :
    MakesNode K foreign (interpolatedStatement template statement) :=
  (quiet_expect _).make fun _ => (makes_readElement h _).bind fun _ hopened =>
    makes_newNode_opened _ (fun _ _ => rfl) hopened

theorem makes_callStatement (h : MakesNode K foreign statement) :
    MakesNode K foreign (callStatement template statement) := by
  refine (quiet_expect _).make fun token => (makes_readElement h _).bind fun opened hopened => ?_
  show Makes _ _ _ (newNode _ _ (if opened.body.nodes.isEmpty then [] else [opened.body]) _) _
  split
  · exact makes_newNode _ (fun _ _ => rfl) hopened.code nofun
  · exact makes_newNode_opened _ (fun _ _ => rfl) hopened

theorem makes_shorthandStatement (h : MakesNode K foreign statement) :
    MakesNode K foreign (shorthandStatement template statement) :=
  quiet_advance.make fun _ => (quiet_defer _).make fun _ => h

/-! ## Named blocks and mixins -/

theorem makes_namedContent (h : MakesNode K foreign statement) (line : Int) :
    MakesBlock K foreign (namedContent template statement line) :=
  (quiet_isAt _).make fun _ => .ite (makes_indentedBlock h)
    ((makes_newLeaf _ fun _ _ => rfl).bind fun _ hnode =>
      makes_newBlock _ _ (List.forall_mem_singleton.mpr hnode))

theorem makes_defineBlock (name : String) {block : Block BlockId Draft} (owner : Nat)
    (h : (ofBlock block).MadeOf K) :
    Makes id K foreign (defineBlock name block owner) fun block => (ofBlock block).MadeOf K := by
  rintro assembly _ _ ⟨⟩ hmade
  obtain ⟨hstore, hnext, hregistry, hblock⟩ :=
    define_madeOf hmade.store hmade.registry h name owner
  exact ⟨⟨hstore, hregistry, hmade.mixins, hmade.listed.of_same rfl hnext⟩, .of_same rfl hnext,
    hblock⟩

theorem makes_blockStatement (h : MakesNode K foreign statement) :
    MakesNode K foreign (blockStatement template statement) := by
  refine (quiet_expect _).make fun token => (makes_namedContent h _).bind fun content hcontent => ?_
  exact (makes_assemble (makes_defineBlock _ _ (hcontent.withProps _))).bind fun _ hblock =>
    makes_pure hblock

/-- **A definition is a new node when it comes into the table.** -/
theorem makes_definition (line : Int) (element : Element) (args : Option String)
    {body : Block BlockId Draft} (hbody : (ofBlock body).MadeOf K) :
    MakesNode K foreign (do
      let definition ← newNode line (.mixin element args false) [body]
      modifyAssembly fun assembly =>
        { assembly with mixins := assembly.mixins.insert element.name definition }
      return definition) := by
  intro progress result after hrun hmade
  obtain ⟨definition, middle, hnode, hrest⟩ := bind_eq_ok hrun
  obtain ⟨hmiddle, -, hdefinition⟩ :=
    makes_newNode_block line (fun _ _ => rfl) hbody progress definition middle hnode hmade
  obtain ⟨_, _, hmodify, hpure⟩ := bind_eq_ok hrest
  cases hmodify
  cases hpure
  cases hnode
  have hgrows : progress.assembly.Grows { progress.assembly with
      store := progress.assembly.store.taken
      mixins := progress.assembly.mixins.insert element.name
        (.make (some progress.assembly.store.next) line (.mixin element args false)
          [.ofBlock body]) } := by
    refine ⟨Nat.le_succ _, fun name => ?_⟩
    have hget := OrderedMap.get?_insert progress.assembly.mixins element.name
      (.make (some progress.assembly.store.next) line (.mixin element args false)
        [.ofBlock body]) name
    split at hget
    · exact .inr ⟨_, _, hget, rfl, Nat.le_refl _⟩
    · exact .inl hget
  refine ⟨⟨hmiddle.store, hmiddle.registry, fun mixin hmem => ?_, ?_⟩, hgrows, hdefinition⟩
  · rcases OrderedMap.mem_values_insert hmem with rfl | hmem
    · exact .inl hdefinition
    · exact hmade.mixins mixin hmem
  constructor
  case defines =>
    intro entry hentry
    rcases OrderedMap.mem_entries_insert hentry with rfl | hentry
    · rfl
    · exact hmade.listed.defines entry hentry
  case given =>
    intro mixin hmem
    rcases OrderedMap.mem_values_insert hmem with rfl | hmem
    · exact ⟨progress.assembly.store.next, rfl, Nat.lt_succ_self _⟩
    · exact hmiddle.listed.given mixin hmem
  case distinct =>
    -- the other definitions have identities that were given away before
    refine OrderedMap.nodup_map_values_insert Node.id? hmade.listed.distinct
      (fun other hother hsame => ?_) element.name
    obtain ⟨id, hid, hlt⟩ := hmade.listed.given other hother
    exact Nat.ne_of_lt hlt (Option.some.inj (hid.symm.trans hsame))

theorem makes_mixinStatement (h : MakesNode K foreign statement) :
    MakesNode K foreign (mixinStatement template statement) := by
  refine (quiet_expect _).make fun token => (quiet_isAt _).make fun _ => .ite ?_ ?_
  · exact (makes_indentedBlock h).bind fun body hbody => makes_definition _ _ _ hbody
  · exact makes_newLeaf _ fun _ _ => rfl

theorem makes_extendsStatement : MakesNode K foreign (extendsStatement template) := by
  refine (quiet_expect _).make fun token => ?_
  split
  · exact makes_fail _ _
  · refine quiet_get.make fun progress => ?_
    refine Makes.ite ((quiet_fail _ _).make fun _ => ?_) ?_
    all_goals
      refine (quiet_checkCycle _ _).make fun _ => (quiet_tell _ _).make fun _ => ?_
      refine (quiet_load _ _).make fun text => ?_
      refine Quiet.make (quiet_modify fun _ => ?_) fun _ => makes_newLeaf _ fun _ _ => rfl
      exact ⟨rfl, rfl, rfl, rfl⟩

/-! ## Included templates -/

/-- A way to compose templates that makes trees of nodes from a collection. -/
abbrev MakesCompose (K : BlockId → Prop) (foreign : List Draft)
    (compose : Source → Assemble Composed) : Prop :=
  ∀ source, Makes id K foreign (compose source) fun composed => (ofBlock composed.root).MadeOf K

/-- The copy that an included template works on is new, so the registry itself may be made of
    anything. -/
theorem madeOf_copied {assembly : Assembly} (hstore : assembly.store.Closed K)
    (hmixins : ∀ mixin ∈ assembly.mixins.values, mixin.MadeOf K ∨ mixin ∈ foreign)
    (hlisted : assembly.Listed) : assembly.copied.MadeOf K foreign := by
  obtain ⟨hcopied, hregistry⟩ := snapshot_madeOf hstore assembly.registry
  exact ⟨hcopied, hregistry, hmixins, hlisted.of_same rfl (Nat.le_add_right _ _)⟩

theorem makes_composeInclude (hcompose : MakesCompose K foreign template.compose)
    (source : Source) :
    Makes id K foreign (composeInclude template source) fun composed =>
      (ofBlock composed.root).MadeOf K := by
  intro assembly composed after hrun hmade
  obtain ⟨final, hfinal, rfl⟩ := composeInclude_eq_ok hrun
  obtain ⟨hafter, hgrows, hroot⟩ := hcompose source _ _ _ hfinal
    (madeOf_copied hmade.store hmade.mixins hmade.listed)
  have hcopied : assembly.Grows assembly.copied := .of_same rfl (Nat.le_add_right _ _)
  exact ⟨⟨hafter.store, hmade.registry, hafter.mixins, hafter.listed.of_same rfl (Nat.le_refl _)⟩,
    (hcopied.trans hgrows).trans (.of_same rfl (Nat.le_refl _)), hroot⟩

/-- A block may be given other contents from the collection. -/
theorem Assembly.MadeOf.write {assembly : Assembly} (h : assembly.MadeOf K foreign)
    {block : Block BlockId Draft} (hblock : (ofBlock block).MadeOf K) (log : List LogRecord) :
    Assembly.MadeOf K foreign { assembly with store := assembly.store.write block, log } :=
  ⟨h.store.write hblock, h.registry, h.mixins, h.listed.of_same rfl (Nat.le_refl _)⟩

theorem makes_nameRoot (path : String) {root : Block BlockId Draft}
    (h : (ofBlock root).MadeOf K) :
    Makes id K foreign (nameRoot path root) fun named => (ofBlock named).MadeOf K := by
  rintro assembly _ _ ⟨⟩ hmade
  have hread : (ofBlock (assembly.store.read root)).MadeOf K := hmade.store.read h
  have hnamed := hread.withProps { (assembly.store.read root).props with filename := some path }
  exact ⟨hmade.write hnamed assembly.log, .of_same rfl (Nat.le_refl _), hnamed⟩

theorem makes_includeTarget {root : Block BlockId Draft} (h : (ofBlock root).MadeOf K) :
    Makes id K foreign (includeTarget root) fun target => (ofBlock target).MadeOf K := by
  rintro assembly _ _ ⟨⟩ hmade
  exact ⟨hmade, .refl _,
    includePoint_inherits inherited_madeOf (hmade.store.resolveBlock h)⟩

theorem makes_pushInto {block : Block BlockId Draft} {node : Draft}
    (hblock : (ofBlock block).MadeOf K) (hnode : node.MadeOf K) :
    Makes id K foreign (pushInto block node) fun _ => True := by
  rintro assembly _ _ ⟨⟩ hmade
  obtain ⟨hid, hnodes⟩ := madeOf_ofBlock.mp (hmade.store.read hblock)
  have hfilled : (ofBlock { assembly.store.read block with
      nodes := (assembly.store.read block).nodes ++ [node] }).MadeOf K :=
    madeOf_ofBlock.mpr
      ⟨hid, List.forall_mem_append.mpr ⟨hnodes, List.forall_mem_singleton.mpr hnode⟩⟩
  exact ⟨hmade.write hfilled assembly.log, .of_same rfl (Nat.le_refl _), trivial⟩

/-- The content below an include goes into the tree of the included template. -/
theorem makes_includeContent (h : MakesNode K foreign statement) {root : Block BlockId Draft}
    (hroot : (ofBlock root).MadeOf K) :
    MakesNode K foreign (do
      if ← isAt template .indent then
        let target ← assemble (includeTarget root)
        let content ← indentedBlock template statement
        assemble (pushInto target (.ofBlock content))
      return Node.ofBlock root) := by
  refine (quiet_isAt _).make fun _ => .ite ?_ (makes_pure hroot)
  refine (makes_assemble (makes_includeTarget hroot)).bind fun target htarget => ?_
  refine (makes_indentedBlock h).bind fun content hcontent => ?_
  exact (makes_assemble (makes_pushInto htarget hcontent)).bind fun _ _ => makes_pure hroot

theorem makes_includeTemplate (h : MakesNode K foreign statement)
    (hcompose : MakesCompose K foreign template.compose) (filename path : String) (line : Int) :
    MakesNode K foreign (includeTemplate template statement filename path line) := by
  refine (quiet_checkCycle _ _).make fun _ => (quiet_tell _ _).make fun _ => ?_
  refine (quiet_load _ _).make fun text => ?_
  refine (makes_assemble (makes_composeInclude hcompose _)).bind fun composed hcomposed => ?_
  exact (makes_assemble (makes_nameRoot path hcomposed)).bind fun root hroot =>
    makes_includeContent h hroot

theorem makes_includeStatement (h : MakesNode K foreign statement)
    (hcompose : MakesCompose K foreign template.compose) :
    MakesNode K foreign (includeStatement template statement) := by
  refine (quiet_expect _).make fun token => ?_
  split
  · exact makes_fail _ _
  · refine Makes.ite (makes_includeTemplate h hcompose _ _ _) ?_
    refine (quiet_tell _ _).make fun _ => (quiet_load _ _).make fun text => ?_
    refine quiet_peek.make fun after => ?_
    refine Makes.ite ((quiet_fail _ _).make fun _ => ?_) ?_
    all_goals exact makes_newLeaf _ fun _ _ => rfl

/-! ## Whole templates -/

/-- A statement makes a node when the statements inside it do. -/
theorem makes_statementStep (h : MakesNode K foreign statement)
    (hcompose : MakesCompose K foreign template.compose) :
    MakesNode K foreign (statementStep template statement) := by
  refine quiet_peek.make fun token => ?_
  split
  · exact makes_tagStatement h
  · exact makes_mixinStatement h
  · exact makes_blockStatement h
  · exact makes_caseStatement h
  · exact makes_whenStatement h
  · exact makes_defaultStatement h
  · exact makes_extendsStatement
  · exact makes_includeStatement h hcompose
  · exact makes_doctypeStatement
  · exact makes_filterStatement
  · exact makes_commentStatement h
  · exact makes_textLine
  · exact makes_eachStatement h
  · exact makes_codeStatement h
  · exact makes_callStatement h
  · exact makes_interpolatedStatement h
  · exact makes_yieldStatement
  · exact makes_shorthandStatement h
  · exact makes_shorthandStatement h
  · exact makes_fail _ _

/-- **Statements make nodes from the collection**, however deep they lie inside one another. -/
theorem makes_statementWith (hcompose : MakesCompose K foreign template.compose) (fuel : Nat) :
    MakesNode K foreign (statementWith template fuel) := by
  induction fuel with
  | zero => exact makes_throw _
  | succ fuel ih => exact makes_statementStep ih hcompose

theorem makes_document (hcompose : MakesCompose K foreign template.compose) :
    MakesNodes K foreign (document template) :=
  quiet_tokenBound.make fun bound =>
    makes_statements (makes_statementWith hcompose (2 * bound)) .eos

section Templates

variable {config : Config} {compose : Source → Assemble Composed} {source : Source}

theorem makes_readStatements (hcompose : MakesCompose K foreign compose) :
    Makes id K foreign (readStatements config compose source) fun read =>
      ∀ node ∈ read.1, node.MadeOf K := by
  rintro assembly ⟨nodes, layout?⟩ read hread hmade
  obtain ⟨after, hdocument, -, rfl⟩ := readStatements_eq_ok.mp hread
  obtain ⟨hread, hgrows, hnodes⟩ := makes_document hcompose _ _ _ hdocument
    ⟨hmade.store, hmade.registry, hmade.mixins, hmade.listed.of_same rfl (Nat.le_refl _)⟩
  exact ⟨hread, ⟨hgrows.next, hgrows.mixins⟩, hnodes⟩

theorem makes_newRoot (filename : Option String) {nodes : List Draft}
    (h : ∀ node ∈ nodes, node.MadeOf K) :
    Makes id K foreign (newRoot filename nodes) fun root => (ofBlock root).MadeOf K := by
  rintro assembly _ _ ⟨⟩ hmade
  exact ⟨hmade.taken, .of_same rfl (Nat.le_succ _),
    madeOf_ofBlock.mpr ⟨hmade.store.fresh _ (Nat.le_refl _), h⟩⟩

/-- Mixin definitions are moved into the tree of a layout. -/
theorem makes_hoistMixins (layout : Layout) {root : Block BlockId Draft}
    (h : (ofBlock root).MadeOf K) :
    Makes id K [] (hoistMixins layout root) fun filled => (ofBlock filled).MadeOf K := by
  intro assembly filled after hrun hmade
  obtain ⟨store, log, rfl, hcases⟩ := Placement.hoistMixins_eq_ok hrun
  rcases hcases with ⟨-, rfl, rfl⟩ | ⟨rfl, hfilled⟩
  · have hsame : Assembly.MadeOf K [] { assembly with log } :=
      ⟨hmade.store, hmade.registry, hmade.mixins, hmade.listed.of_same rfl (Nat.le_refl _)⟩
    exact ⟨hsame, .of_same rfl (Nat.le_refl _), h⟩
  · have hnew : (ofBlock filled).MadeOf K := by
      obtain ⟨hid, hnodes⟩ := madeOf_ofBlock.mp (hmade.store.read h)
      rw [hfilled]
      refine madeOf_ofBlock.mpr ⟨hid, List.forall_mem_append.mpr ⟨fun node hnode => ?_, hnodes⟩⟩
      exact hmade.definitions node (List.mem_filter.mp hnode).1
    exact ⟨hmade.write hnew log, .of_same rfl (Nat.le_refl _), hnew⟩

theorem makes_composeLayout (hcompose : MakesCompose K [] compose) (layout : Layout) :
    Makes id K [] (composeLayout compose source layout) fun root => (ofBlock root).MadeOf K := by
  intro assembly root after hrun hmade
  obtain ⟨composed, middle, hlayout, hhoist⟩ := Placement.composeLayout_eq_ok hrun
  -- the layout has mixins of its own
  have hempty : (Placement.forLayout assembly).MadeOf K [] :=
    ⟨hmade.store, hmade.registry, nofun, listed_of_empty rfl⟩
  obtain ⟨hcomposed, hgrows, hroot⟩ := hcompose _ _ _ _ hlayout hempty
  have hnext : assembly.store.next ≤ middle.store.next := hgrows.next
  have hmiddle : Assembly.MadeOf K [] { middle with mixins := assembly.mixins } :=
    ⟨hcomposed.store, hcomposed.registry, hmade.mixins, hmade.listed.of_same rfl hnext⟩
  obtain ⟨hafter, hgrows', hresult⟩ := makes_hoistMixins layout hroot _ _ _ hhoist hmiddle
  have hrestored : assembly.Grows { middle with mixins := assembly.mixins } := .of_same rfl hnext
  exact ⟨hafter, hrestored.trans hgrows', hresult⟩

theorem makes_composeStep (hcompose : MakesCompose K [] compose) :
    MakesCompose K [] (composeStep config compose) := by
  intro source assembly composed after hrun hmade
  obtain ⟨nodes, layout?, read, hread, hrest⟩ := Placement.composeStep_eq_ok hrun
  obtain ⟨hmiddle, hgrows, hnodes⟩ := makes_readStatements hcompose _ _ _ hread hmade
  cases layout? with
  | none =>
      obtain ⟨hafter, hgrows', hroot⟩ := makes_newRoot source.filename hnodes _ _ _ hrest hmiddle
      exact ⟨hafter, hgrows.trans hgrows', hroot⟩
  | some layout =>
      obtain ⟨hafter, hgrows', hroot⟩ := makes_composeLayout hcompose layout _ _ _ hrest hmiddle
      exact ⟨hafter, hgrows.trans hgrows', hroot⟩

/-- **Composing a template makes a tree of nodes from the collection**, with all the templates it
    leads to. -/
theorem makes_composeWith (config : Config) (fuel : Nat) :
    MakesCompose K [] (composeWith config fuel) := by
  induction fuel with
  | zero => exact fun _ => makes_throw _
  | succ fuel ih => exact makes_composeStep ih

end Templates

end Stencil
