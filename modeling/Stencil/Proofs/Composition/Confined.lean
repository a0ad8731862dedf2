import Stencil.Proofs.Grammar.Confined
import Stencil.Proofs.Placement.Chain

/-! # Composition is confined — what templates touch, production by production

    Whatever a template reads is made of new blocks, of the named blocks and of
    the mixin definitions, so a composition stays within every collection that
    these come from: `confined_statementWith` for statements, whatever the fuel,
    and `confined_composeWith` for whole templates with all they lead to.

    An included template works on a snapshot, which is made of new blocks; the
    registry it works on is forgotten at its end (`confined_composeInclude`). -/

namespace Stencil

open Registry Store Parse

variable {K : BlockId → Prop} {template : Template} {statement : Parse Draft}

/-- A reader of a node that is confined, whatever is held. -/
abbrev ConfinesNode (K : BlockId → Prop) (reader : Parse Draft) : Prop :=
  ∀ held, Confined Progress.assembly K held reader blockIds

/-- A reader of a block that is confined, whatever is held. -/
abbrev ConfinesBlock (K : BlockId → Prop) (reader : Parse (Block BlockId Draft)) : Prop :=
  ∀ held, Confined Progress.assembly K held reader fun block => blockIds (.ofBlock block)

/-- A reader of nodes that is confined, whatever is held. -/
abbrev ConfinesNodes (K : BlockId → Prop) (reader : Parse (List Draft)) : Prop :=
  ∀ held, Confined Progress.assembly K held reader fun nodes => nodes.flatMap blockIds

/-! ## Bodies -/

/-- Nodes that were made one after another. -/
theorem confined_cons {held : List BlockId} (node : Draft) (nodes : List Draft) :
    Confined Progress.assembly K (nodes.flatMap blockIds ++ (blockIds node ++ held))
      (pure (node :: nodes)) fun nodes => nodes.flatMap blockIds := by
  refine confined_pure ?_
  rw [List.flatMap_cons]
  intro id hid
  simp only [List.mem_append] at hid ⊢
  tauto

theorem confined_statementsWith (h : ConfinesNode K statement) (stop : TokenKind) (fuel : Nat) :
    ConfinesNodes K (statementsWith template statement stop fuel) := by
  induction fuel with
  | zero => exact fun _ => confined_throw _
  | succ fuel ih =>
      intro held
      refine quiet_peek.confine fun token => .ite (confined_pure (List.nil_subset _)) (.ite ?_ ?_)
      · exact quiet_drop.confine fun _ => ih held
      · exact (h held).bind fun node => (ih _).bind fun nodes => confined_cons node nodes

theorem confined_statements (h : ConfinesNode K statement) (stop : TokenKind) :
    ConfinesNodes K (statements template statement stop) := fun held =>
  quiet_tokenBound.confine fun fuel => confined_statementsWith h stop fuel held

theorem confined_indentedBlock (h : ConfinesNode K statement) :
    ConfinesBlock K (indentedBlock template statement) := by
  intro held
  refine (quiet_expect _).confine fun token => (confined_statements h _ held).bind fun nodes => ?_
  refine (quiet_expect _).discard.confine fun _ => ?_
  exact confined_newBlock _ nodes _ (List.subset_append_left _ _)

theorem confined_rawLinesWith {deeper : Parse (Block BlockId Draft)} (h : ConfinesBlock K deeper)
    (indent fuel : Nat) : ConfinesNodes K (rawLinesWith template deeper indent fuel) := by
  induction fuel with
  | zero => exact fun _ => confined_throw _
  | succ fuel ih =>
      intro held
      refine quiet_peek.confine fun token => ?_
      split
      · exact confined_pure (List.nil_subset _)
      · exact quiet_drop.confine fun _ => ih held
      · refine (h held).bind fun block => (ih _).bind fun nodes => confined_pure ?_
        rw [List.flatMap_append, blockIds_ofBlock]
        intro id hid
        simp only [List.mem_append, List.mem_cons] at hid ⊢
        tauto
      · refine quiet_advance.confine fun line => ?_
        exact (confined_newLeaf _ fun _ _ => rfl).bind fun node =>
          (ih _).bind fun nodes => confined_cons node nodes

theorem confined_rawBlockWith (fuel : Nat) : ConfinesBlock K (rawBlockWith template fuel) := by
  induction fuel with
  | zero => exact fun _ => confined_throw _
  | succ fuel ih =>
      intro held
      refine (quiet_expect _).confine fun token => quiet_get.confine fun progress => ?_
      show Confined _ _ _ (modify _ >>= _) _
      refine Quiet.confine (quiet_modify fun _ => ?_) fun _ => ?_
      · exact ⟨rfl, rfl, rfl, rfl⟩
      refine quiet_tokenBound.confine fun bound => ?_
      refine (confined_rawLinesWith ih _ bound held).bind fun nodes => ?_
      refine (quiet_modify fun after => ?_).confine fun _ => ?_
      · split
        · exact ⟨rfl, rfl, rfl, rfl⟩
        · exact .refl _
      refine (quiet_expect _).discard.confine fun _ => ?_
      exact confined_newBlock _ nodes _ (List.subset_append_left _ _)

theorem confined_rawBlock : ConfinesBlock K (rawBlock template) := by
  intro held
  refine (quiet_setMode _).confine fun _ => quiet_tokenBound.confine fun bound => ?_
  refine (confined_rawBlockWith bound held).bind fun block => (quiet_setMode _).confine fun _ => ?_
  exact confined_pure (List.subset_append_left _ _)

/-! ## Lines with a head -/

theorem confined_textLine : ConfinesNode K (textLine template) := fun _ =>
  (quiet_expect _).confine fun _ => confined_newLeaf _ fun _ _ => rfl

/-- A block around one node that was made before. -/
theorem confined_blockOf {held : List BlockId} (line : Int) (node : Draft) (props : BlockProps) :
    Confined Progress.assembly K (blockIds node ++ held) (newBlock line [node] props)
      fun block => blockIds (.ofBlock block) := by
  refine confined_newBlock line [node] props ?_
  rw [List.flatMap_singleton]
  exact List.subset_append_left _ _

theorem confined_armBody (h : ConfinesNode K statement) :
    ConfinesBlock K (armBody template statement) := fun held =>
  quiet_peek.confine fun _ => .ite
    (quiet_drop.confine fun _ => (h held).bind fun node => confined_blockOf _ node _)
    (confined_indentedBlock h held)

/-- A head, and a block below it. -/
theorem confined_headed {kind : TokenKind} {body : Parse (Block BlockId Draft)}
    (h : ConfinesBlock K body) (result : Token → Kind BlockId)
    (hkind : ∀ token own line children, (Node.make own line (result token) children).id? = own) :
    ConfinesNode K (expect template kind >>= fun token =>
      body >>= fun block => newNode token.line (result token) [block]) := fun held =>
  (quiet_expect _).confine fun token => (h held).bind fun _ =>
    confined_newNode_block _ (hkind token · token.line)

theorem confined_caseStatement (h : ConfinesNode K statement) :
    ConfinesNode K (caseStatement template statement) :=
  confined_headed (confined_indentedBlock h) (fun token => .case token.value) fun _ _ _ _ => rfl

theorem confined_whenStatement (h : ConfinesNode K statement) :
    ConfinesNode K (whenStatement template statement) :=
  confined_headed (confined_armBody h) (fun token => .when token.value) fun _ _ _ _ => rfl

theorem confined_defaultStatement (h : ConfinesNode K statement) :
    ConfinesNode K (defaultStatement template statement) :=
  confined_headed (confined_armBody h) (fun _ => .when "default") fun _ _ _ _ => rfl

theorem confined_codeStatement (h : ConfinesNode K statement) :
    ConfinesNode K (codeStatement template statement) := by
  intro held
  refine (quiet_expect _).confine fun token => quiet_tokenBound.confine fun bound => ?_
  refine (quiet_newlinesFrom bound 0).confine fun breaks => ?_
  refine (quiet_peekAt breaks).confine fun after => .ite ?_ ?_
  · refine (quiet_skip breaks).confine fun _ => (confined_indentedBlock h held).bind fun block => ?_
    exact confined_newNode_block _ (Placement.codeKind_id? token · token.line)
  · exact confined_newLeaf _ (Placement.codeKind_id? token · token.line)

theorem confined_eachStatement (h : ConfinesNode K statement) :
    ConfinesNode K (eachStatement template statement) := by
  intro held
  refine (quiet_expect _).confine fun token => (confined_indentedBlock h held).bind fun body => ?_
  refine quiet_peek.confine fun after => .ite ?_ ?_
  · refine quiet_drop.confine fun _ => (confined_indentedBlock h _).bind fun alternative => ?_
    refine confined_newNode _ (Placement.eachKind_id? token · token.line) ?_
    intro id hid
    simp only [Option.toList_none, List.nil_append, List.map_cons, List.map_nil,
      List.flatMap_cons, List.flatMap_nil, List.append_nil, List.mem_append] at hid ⊢
    tauto
  · exact confined_newNode_block _ (Placement.eachKind_id? token · token.line)

theorem confined_commentStatement (h : ConfinesNode K statement) :
    ConfinesNode K (commentStatement template statement) := fun held =>
  (quiet_expect _).confine fun _ => (quiet_isAt _).confine fun _ => .ite
    ((confined_indentedBlock h held).bind fun _ => confined_newNode_block _ fun _ _ => rfl)
    (confined_newLeaf _ fun _ _ => rfl)

theorem confined_doctypeStatement : ConfinesNode K (doctypeStatement template) := fun _ =>
  (quiet_expect _).confine fun _ => confined_newLeaf _ fun _ _ => rfl

theorem confined_filterStatement : ConfinesNode K (filterStatement template) := by
  intro held
  refine (quiet_expect _).confine fun token => quiet_peek.confine fun after => ?_
  have hbody : ∀ attributes, Confined Progress.assembly K held
      (rawBlock template >>= fun body =>
        newNode token.line (.filter token.value attributes) [body]) blockIds := fun attributes =>
    (confined_rawBlock held).bind fun body => confined_newNode_block _ fun _ _ => rfl
  exact .ite (quiet_drop.confine fun _ => (quiet_pure _).confine hbody)
    ((quiet_pure _).confine hbody)

theorem confined_yieldStatement : ConfinesNode K (yieldStatement template) := fun _ =>
  (quiet_expect _).confine fun _ =>
    (confined_newBlock _ [] _ (List.nil_subset _)).bind fun _ =>
      confined_pure (List.subset_append_left _ _)

/-! ## Elements -/

/-- The blocks that stand in an element that is being read. -/
def Parse.OpenElement.blockIds (opened : OpenElement) : List BlockId :=
  opened.code.toList.flatMap Registry.blockIds ++ Registry.blockIds (.ofBlock opened.body)

theorem confined_readLineContent (h : ConfinesNode K statement) {opened : OpenElement}
    {held : List BlockId} (hheld : opened.blockIds ⊆ held) :
    Confined Progress.assembly K held (readLineContent template statement opened)
      OpenElement.blockIds := by
  obtain ⟨hcode, hbody⟩ := List.append_subset.mp hheld
  refine quiet_peek.confine fun token => ?_
  split
  · refine (confined_textLine held).bind fun text => confined_pure ?_
    rw [blockIds_ofBlock] at hbody
    obtain ⟨hid, hnodes⟩ := List.cons_subset.mp hbody
    intro id hmem
    simp only [OpenElement.blockIds, blockIds_ofBlock, List.flatMap_append, List.flatMap_singleton,
      List.mem_append, List.mem_cons] at hmem ⊢
    rcases hmem with hmem | rfl | hmem | hmem
    · exact .inr (hcode hmem)
    · exact .inr hid
    · exact .inr (hnodes hmem)
    · exact .inl hmem
  · refine (confined_codeStatement h held).bind fun code => confined_pure ?_
    refine List.append_subset.mpr ⟨?_, fun _ hmem => List.mem_append_right _ (hbody hmem)⟩
    rw [Option.toList_some, List.flatMap_singleton]
    exact List.subset_append_left _ _
  · refine quiet_drop.confine fun _ => (h held).bind fun node => ?_
    refine (confined_blockOf _ node _).bind fun body => confined_pure ?_
    refine List.append_subset.mpr ⟨fun _ hmem => ?_, List.subset_append_left _ _⟩
    exact List.mem_append_right _ (List.mem_append_right _ (hcode hmem))
  · exact confined_pure hheld

/-- The blocks that stand in an element once an indented body is put behind its content. -/
theorem blockIds_joinBody (opened : OpenElement) (body : Block BlockId Draft) :
    (joinBody opened body).blockIds ⊆ blockIds (.ofBlock body) ++ opened.blockIds := by
  intro id hid
  unfold joinBody at hid
  split at hid
  · simp only [OpenElement.blockIds, List.mem_append] at hid ⊢
    tauto
  · simp only [OpenElement.blockIds, blockIds_ofBlock, List.flatMap_append, List.mem_append,
      List.mem_cons] at hid ⊢
    tauto

theorem confined_readBody (h : ConfinesNode K statement) {opened : OpenElement}
    {held : List BlockId} (hheld : opened.blockIds ⊆ held) :
    Confined Progress.assembly K held (readBody template statement opened)
      OpenElement.blockIds := by
  have hjoined : ∀ body : Block BlockId Draft,
      (joinBody opened body).blockIds ⊆ blockIds (.ofBlock body) ++ held := fun body id hid =>
    (List.mem_append.mp (blockIds_joinBody opened body hid)).elim (List.mem_append_left _)
      fun hmem => List.mem_append_right _ (hheld hmem)
  refine (quiet_isAt _).confine fun _ => .ite (.ite ?_ ?_) (confined_pure hheld)
  · refine (confined_rawBlock held).bind fun body => confined_pure ?_
    have hraw := hjoined { body with props := { body.props with textOnly := true } }
    rwa [blockIds_ofBlock] at hraw ⊢
  · exact (confined_indentedBlock h held).bind fun body => confined_pure (hjoined body)

theorem confined_readElement (h : ConfinesNode K statement) (element : Element)
    (held : List BlockId) :
    Confined Progress.assembly K held (readElement template statement element)
      OpenElement.blockIds := by
  refine (confined_newBlock 0 [] _ (List.nil_subset _)).bind fun body => ?_
  refine Quiet.confine (quiet_readAttributes element) fun element => ?_
  refine quiet_takeDot.confine fun dot => ?_
  refine (confined_readLineContent h ?_).bind fun opened => ?_
  · exact List.append_subset.mpr ⟨List.nil_subset _, List.subset_append_left _ _⟩
  · refine quiet_skipNewlines.confine fun _ => ?_
    exact confined_readBody h (List.subset_append_left _ _)

/-- A node around the inline code and the body of an element. -/
theorem confined_newNode_opened {held : List BlockId} (line : Int) {kind : Kind BlockId}
    (opened : OpenElement)
    (hkind : ∀ own children, (Node.make own line kind children).id? = own) :
    Confined Progress.assembly K (opened.blockIds ++ held)
      (newNode line kind [opened.body] opened.code) blockIds := by
  refine confined_newNode line hkind ?_
  rw [List.flatMap_append, List.map_singleton, List.flatMap_singleton]
  exact List.subset_append_left _ _

theorem confined_tagStatement (h : ConfinesNode K statement) :
    ConfinesNode K (tagStatement template statement) := fun held =>
  (quiet_expect _).confine fun _ => (confined_readElement h _ held).bind fun opened =>
    confined_newNode_opened _ opened fun _ _ => rfl

theorem confined_interpolatedStatement (h : ConfinesNode K statement) :
    ConfinesNode K (interpolatedStatement template statement) := fun held =>
  (quiet_expect _).confine fun _ => (confined_readElement h _ held).bind fun opened =>
    confined_newNode_opened _ opened fun _ _ => rfl

theorem confined_callStatement (h : ConfinesNode K statement) :
    ConfinesNode K (callStatement template statement) := by
  intro held
  refine (quiet_expect _).confine fun token => (confined_readElement h _ held).bind fun opened => ?_
  show Confined _ _ _ (newNode _ _ (if opened.body.nodes.isEmpty then [] else [opened.body]) _) _
  split
  · refine confined_newNode _ (fun _ _ => rfl) ?_
    rw [List.map_nil, List.append_nil]
    exact fun _ hmem => List.mem_append_left _ (List.mem_append_left _ hmem)
  · exact confined_newNode_opened _ opened fun _ _ => rfl

theorem confined_shorthandStatement (h : ConfinesNode K statement) :
    ConfinesNode K (shorthandStatement template statement) := fun held =>
  quiet_advance.confine fun _ => (quiet_defer _).confine fun _ => h held

/-! ## Named blocks and mixins -/

theorem confined_namedContent (h : ConfinesNode K statement) (line : Int) :
    ConfinesBlock K (namedContent template statement line) := fun held =>
  (quiet_isAt _).confine fun _ => .ite (confined_indentedBlock h held)
    ((confined_newLeaf _ fun _ _ => rfl).bind fun node => confined_blockOf _ node _)

theorem confined_defineBlock {held : List BlockId} (name : String) {block : Block BlockId Draft}
    (owner : Nat) (h : blockIds (.ofBlock block) ⊆ held) :
    Confined id K held (defineBlock name block owner) fun block => blockIds (.ofBlock block) := by
  rintro assembly _ _ ⟨⟩ hwithin hheld
  obtain ⟨hkeeps, hregistry, hmade⟩ :=
    define_keeps hwithin.store hwithin.registry (hheld.subset h) name owner
  have hmixins := hwithin.mixins.mono hkeeps.next
  exact ⟨⟨hkeeps.toChanges, hkeeps.within, hregistry, hmixins⟩, hmade⟩

theorem confined_blockStatement (h : ConfinesNode K statement) :
    ConfinesNode K (blockStatement template statement) := by
  intro held
  refine (quiet_expect _).confine fun token =>
    (confined_namedContent h _ held).bind fun content => ?_
  refine (confined_assemble (confined_defineBlock _ _ ?_)).bind fun block =>
    confined_pure (List.subset_append_left _ _)
  rw [blockIds_ofBlock, blockIds_ofBlock]
  exact List.subset_append_left _ _

/-- A mixin definition is entered into the table. -/
theorem confined_enterMixin {held : List BlockId} (name : String) (definition : Draft) :
    Confined Progress.assembly K (blockIds definition ++ held)
      (modifyAssembly fun assembly =>
        { assembly with mixins := assembly.mixins.insert name definition }) fun _ => [] := by
  rintro progress _ _ ⟨⟩ hwithin hheld
  refine ⟨⟨.refl _, hwithin.store, hwithin.registry, fun id hid => ?_⟩, nofun⟩
  obtain ⟨mixin, hmixin, hstands⟩ := List.mem_flatMap.mp hid
  rcases OrderedMap.mem_values_insert hmixin with rfl | hmixin
  · exact hheld id (List.mem_append_left _ hstands)
  · exact hwithin.mixins id (List.mem_flatMap.mpr ⟨mixin, hmixin, hstands⟩)

theorem confined_mixinStatement (h : ConfinesNode K statement) :
    ConfinesNode K (mixinStatement template statement) := by
  intro held
  refine (quiet_expect _).confine fun token => (quiet_isAt _).confine fun _ => .ite ?_ ?_
  · refine (confined_indentedBlock h held).bind fun body => ?_
    refine (confined_newNode_block _ fun _ _ => rfl).bind fun definition => ?_
    refine (confined_enterMixin token.value definition).bind fun _ => confined_pure ?_
    exact List.subset_append_left _ _
  · exact confined_newLeaf _ fun _ _ => rfl

theorem confined_extendsStatement : ConfinesNode K (extendsStatement template) := by
  intro held
  refine (quiet_expect _).confine fun token => ?_
  split
  · exact confined_fail _ _
  · refine quiet_get.confine fun progress => ?_
    refine Confined.ite ((quiet_fail _ _).confine fun _ => ?_) ?_
    all_goals
      refine (quiet_checkCycle _ _).confine fun _ => (quiet_tell _ _).confine fun _ => ?_
      refine (quiet_load _ _).confine fun text => ?_
      refine Quiet.confine (quiet_modify fun _ => ?_) fun _ => confined_newLeaf _ fun _ _ => rfl
      exact ⟨rfl, rfl, rfl, rfl⟩

/-! ## Included templates -/

/-- A way to compose templates that is confined. -/
abbrev ConfinesCompose (K : BlockId → Prop) (compose : Source → Assemble Composed) : Prop :=
  ∀ source held, Confined id K held (compose source) fun composed =>
    blockIds (.ofBlock composed.root)

/-- What an included template starts with. -/
def Assembly.copied (assembly : Assembly) : Assembly :=
  { assembly with
    store := (assembly.registry.snapshot assembly.store).1
    registry := (assembly.registry.snapshot assembly.store).2 }

theorem composeInclude_eq_ok {source : Source} {assembly after : Assembly} {composed : Composed}
    (h : composeInclude template source assembly = .ok composed after) :
    ∃ final, template.compose source assembly.copied = .ok composed final
      ∧ after = { final with registry := assembly.registry } := by
  replace h : (template.compose source >>= fun composed => do
      modify fun after => { after with registry := assembly.registry }
      return composed) assembly.copied = .ok composed after := h
  obtain ⟨result, final, hcompose, hrest⟩ := bind_eq_ok h
  cases hrest
  exact ⟨final, hcompose, rfl⟩

/-- The copy that an included template works on is new, so the named blocks themselves need not be
    in the collection. -/
theorem keeps_copied {assembly : Assembly} (hstore : assembly.store.Within K)
    (hregistry : ∀ id ∈ assembly.registry.mentioned, id < assembly.store.next)
    (hmixins : assembly.store.Known K (assembly.mixins.values.flatMap blockIds)) :
    assembly.Keeps K assembly.copied := by
  have hkeeps : assembly.store.Keeps K assembly.copied.store := keeps_snapshot hstore
  exact ⟨hkeeps.toChanges, hkeeps.within, known_snapshot hstore hregistry,
    hmixins.mono hkeeps.next⟩

theorem confined_composeInclude (hcompose : ConfinesCompose K template.compose) (source : Source)
    (held : List BlockId) :
    Confined id K held (composeInclude template source) fun composed =>
      blockIds (.ofBlock composed.root) := by
  intro assembly composed after hrun hwithin _
  obtain ⟨final, hfinal, rfl⟩ := composeInclude_eq_ok hrun
  have hcopied :=
    keeps_copied hwithin.store (fun id hid => (hwithin.registry id hid).2) hwithin.mixins
  obtain ⟨hkeeps, hroot⟩ := hcompose source [] _ _ _ hfinal hcopied.within nofun
  have hall := hcopied.trans hkeeps
  -- the registry is the one from before again
  have hregistry := hwithin.registry.mono hall.changes.next
  exact ⟨⟨hall.changes, hkeeps.within.store, hregistry, hkeeps.within.mixins⟩, hroot⟩

/-- A block may be given other contents and properties from the collection. -/
theorem keeps_write {assembly : Assembly} {block : Block BlockId Draft} (h : assembly.Within K)
    (hblock : assembly.store.Known K (blockIds (.ofBlock block))) (log : List LogRecord) :
    assembly.Keeps K { assembly with store := assembly.store.write block, log } :=
  ⟨changes_write (known_ofBlock.mp hblock).1.1, h.store.write hblock, h.registry, h.mixins⟩

/-- Naming a tree changes its root block only. -/
theorem keeps_nameRoot {assembly after : Assembly} {path : String}
    {root named : Block BlockId Draft} (hwithin : assembly.store.Within K)
    (hroot : assembly.store.Known K (blockIds (.ofBlock root)))
    (hrun : nameRoot path root assembly = .ok named after) :
    after.registry = assembly.registry ∧ after.mixins = assembly.mixins
      ∧ assembly.store.Keeps K after.store
      ∧ after.store.Known K (blockIds (.ofBlock named)) := by
  cases hrun
  have hread := hwithin.known_read hroot
  rw [blockIds_ofBlock] at hread
  have hnamed : assembly.store.Known K (blockIds (.ofBlock { assembly.store.read root with
      props := { (assembly.store.read root).props with filename := some path } })) := by
    rwa [blockIds_ofBlock]
  have hid := (known_ofBlock.mp hnamed).1.1
  exact ⟨rfl, rfl, ⟨changes_write hid, hwithin.write hnamed⟩, hnamed⟩

theorem confined_nameRoot {held : List BlockId} (path : String) {root : Block BlockId Draft}
    (h : blockIds (.ofBlock root) ⊆ held) :
    Confined id K held (nameRoot path root) fun named => blockIds (.ofBlock named) := by
  intro assembly named after hrun hwithin hheld
  obtain ⟨hregistry, hmixins, hkeeps, hnamed⟩ :=
    keeps_nameRoot hwithin.store (hheld.subset h) hrun
  refine ⟨⟨hkeeps.toChanges, hkeeps.within, ?_, ?_⟩, hnamed⟩
  · rw [id, hregistry]
    exact hwithin.registry.mono hkeeps.next
  · rw [id, hmixins]
    exact hwithin.mixins.mono hkeeps.next

/-- What stands in a tree in its current state comes from the collection when the tree does. -/
theorem known_resolveWith {store : Store Draft} (h : store.Within K) (depth : Nat) :
    ∀ nodes : List Draft, store.Known K (nodes.flatMap blockIds) →
      store.Known K ((nodes.map (store.resolveWith depth)).flatMap blockIds) := by
  induction depth with
  | zero =>
      intro nodes hnodes
      rwa [Store.map_resolveWith_zero]
  | succ depth ih =>
      intro nodes hnodes id hid
      rw [List.flatMap_map] at hid
      obtain ⟨node, hnode, hid⟩ := List.mem_flatMap.mp hid
      refine mem_blockIds_substitute (K := fun id => K id ∧ id < store.next) ?_ node
        (fun inner hinner => hnodes inner (List.mem_flatMap.mpr ⟨node, hnode, hinner⟩)) id hid
      -- a block that is put in has its current contents, brought up to date
      intro outer state houter hstate
      obtain ⟨block, hblock, rfl⟩ := Option.map_eq_some_iff.mp hstate
      have hinside := h.known_inside houter.1
      rw [inside, hblock] at hinside
      refine known_ofBlock.mpr ⟨?_, ih block.nodes hinside⟩
      rwa [show block.id = outer from h.keyed _ _ hblock]

/-- So does the block that included content goes into. -/
theorem known_includePoint {store : Store Draft} (h : store.Within K) {root : Block BlockId Draft}
    (hroot : store.Known K (blockIds (.ofBlock root))) :
    store.Known K (blockIds (.ofBlock (Node.includePoint (store.resolveBlock root)))) := by
  obtain ⟨hid, hnodes⟩ := known_ofBlock.mp (h.known_read hroot)
  exact Node.includePoint_within (known_ofBlock.mpr ⟨hid, known_resolveWith h _ _ hnodes⟩)

theorem confined_includeTarget {held : List BlockId} {root : Block BlockId Draft}
    (h : blockIds (.ofBlock root) ⊆ held) :
    Confined id K held (includeTarget root) fun target => blockIds (.ofBlock target) := by
  rintro assembly _ _ ⟨⟩ hwithin hheld
  exact ⟨⟨.refl _, hwithin⟩, known_includePoint hwithin.store (hheld.subset h)⟩

theorem confined_pushInto {held : List BlockId} {block : Block BlockId Draft} {node : Draft}
    (hblock : blockIds (.ofBlock block) ⊆ held) (hnode : blockIds node ⊆ held) :
    Confined id K held (pushInto block node) fun _ => [] := by
  rintro assembly _ _ ⟨⟩ hwithin hheld
  obtain ⟨hid, hnodes⟩ := known_ofBlock.mp (hwithin.store.known_read (hheld.subset hblock))
  have hfilled : assembly.store.Known K (blockIds (.ofBlock { assembly.store.read block with
      nodes := (assembly.store.read block).nodes ++ [node] })) := by
    refine known_ofBlock.mpr ⟨hid, ?_⟩
    rw [List.flatMap_append, List.flatMap_singleton]
    exact known_append.mpr ⟨hnodes, hheld.subset hnode⟩
  exact ⟨keeps_write hwithin hfilled assembly.log, nofun⟩

/-- The content below an include goes into the tree of the included template. -/
theorem confined_includeContent (h : ConfinesNode K statement) {held : List BlockId}
    {root : Block BlockId Draft} (hroot : blockIds (.ofBlock root) ⊆ held) :
    Confined Progress.assembly K held (do
      if ← isAt template .indent then
        let target ← assemble (includeTarget root)
        let content ← indentedBlock template statement
        assemble (pushInto target (.ofBlock content))
      return Node.ofBlock root) blockIds := by
  refine (quiet_isAt _).confine fun _ => .ite ?_ (confined_pure hroot)
  refine (confined_assemble (confined_includeTarget hroot)).bind fun target => ?_
  refine (confined_indentedBlock h _).bind fun content => ?_
  refine (confined_assemble (confined_pushInto ?_ (List.subset_append_left _ _))).bind fun _ =>
    confined_pure ?_
  · exact fun _ hmem => List.mem_append_right _ (List.mem_append_left _ hmem)
  · intro id hmem
    exact List.mem_append_right _ (List.mem_append_right _ (List.mem_append_right _ (hroot hmem)))

theorem confined_includeTemplate (h : ConfinesNode K statement)
    (hcompose : ConfinesCompose K template.compose) (filename path : String) (line : Int) :
    ConfinesNode K (includeTemplate template statement filename path line) := by
  intro held
  refine (quiet_checkCycle _ _).confine fun _ => (quiet_tell _ _).confine fun _ => ?_
  refine (quiet_load _ _).confine fun text => ?_
  refine (confined_assemble (confined_composeInclude hcompose _ held)).bind fun composed => ?_
  refine (confined_assemble (confined_nameRoot path (List.subset_append_left _ _))).bind
    fun root => ?_
  exact confined_includeContent h (List.subset_append_left _ _)

theorem confined_includeStatement (h : ConfinesNode K statement)
    (hcompose : ConfinesCompose K template.compose) :
    ConfinesNode K (includeStatement template statement) := by
  intro held
  refine (quiet_expect _).confine fun token => ?_
  split
  · exact confined_fail _ _
  · refine Confined.ite (confined_includeTemplate h hcompose _ _ _ held) ?_
    refine (quiet_tell _ _).confine fun _ => (quiet_load _ _).confine fun text => ?_
    refine quiet_peek.confine fun after => ?_
    refine Confined.ite ((quiet_fail _ _).confine fun _ => ?_) ?_
    all_goals exact confined_newLeaf _ fun _ _ => rfl

/-! ## Whole templates -/

/-- A statement is confined when the statements inside it are. -/
theorem confined_statementStep (h : ConfinesNode K statement)
    (hcompose : ConfinesCompose K template.compose) :
    ConfinesNode K (statementStep template statement) := by
  intro held
  refine quiet_peek.confine fun token => ?_
  split
  · exact confined_tagStatement h held
  · exact confined_mixinStatement h held
  · exact confined_blockStatement h held
  · exact confined_caseStatement h held
  · exact confined_whenStatement h held
  · exact confined_defaultStatement h held
  · exact confined_extendsStatement held
  · exact confined_includeStatement h hcompose held
  · exact confined_doctypeStatement held
  · exact confined_filterStatement held
  · exact confined_commentStatement h held
  · exact confined_textLine held
  · exact confined_eachStatement h held
  · exact confined_codeStatement h held
  · exact confined_callStatement h held
  · exact confined_interpolatedStatement h held
  · exact confined_yieldStatement held
  · exact confined_shorthandStatement h held
  · exact confined_shorthandStatement h held
  · exact confined_fail _ _

/-- **Statements are confined**, however deep they lie inside one another. -/
theorem confined_statementWith (hcompose : ConfinesCompose K template.compose) (fuel : Nat) :
    ConfinesNode K (statementWith template fuel) := by
  induction fuel with
  | zero => exact fun _ => confined_throw _
  | succ fuel ih => exact confined_statementStep ih hcompose

theorem confined_document (hcompose : ConfinesCompose K template.compose) :
    ConfinesNodes K (document template) := fun held =>
  quiet_tokenBound.confine fun bound =>
    confined_statements (confined_statementWith hcompose (2 * bound)) .eos held

section Templates

variable {config : Config} {compose : Source → Assemble Composed} {source : Source}

theorem confined_readStatements (hcompose : ConfinesCompose K compose) (held : List BlockId) :
    Confined id K held (readStatements config compose source) fun read =>
      read.1.flatMap blockIds := by
  rintro assembly ⟨nodes, layout?⟩ read hread hwithin hheld
  obtain ⟨after, hdocument, -, rfl⟩ := readStatements_eq_ok.mp hread
  obtain ⟨hkeeps, hnodes⟩ := confined_document hcompose held _ _ _ hdocument
    ⟨hwithin.store, hwithin.registry, hwithin.mixins⟩ hheld
  exact ⟨⟨hkeeps.changes, hkeeps.within⟩, hnodes⟩

theorem confined_newRoot {held : List BlockId} (filename : Option String) {nodes : List Draft}
    (h : nodes.flatMap blockIds ⊆ held) :
    Confined id K held (newRoot filename nodes) fun root => blockIds (.ofBlock root) := by
  rintro assembly _ _ ⟨⟩ hwithin hheld
  have hchanges := changes_taken (K := K) assembly.store
  have hnew : K assembly.store.next ∧ assembly.store.next < assembly.store.taken.next :=
    ⟨hwithin.store.fresh _ (Nat.le_refl _), Nat.lt_succ_self _⟩
  refine ⟨⟨hchanges, hwithin.store.taken, hwithin.registry.mono hchanges.next,
    hwithin.mixins.mono hchanges.next⟩, known_ofBlock.mpr ⟨hnew, ?_⟩⟩
  exact (hheld.subset h).mono hchanges.next

/-- Mixin definitions are moved into the tree of a layout. -/
theorem confined_hoistMixins {held : List BlockId} (layout : Layout) {root : Block BlockId Draft}
    (h : blockIds (.ofBlock root) ⊆ held) :
    Confined id K held (hoistMixins layout root) fun filled => blockIds (.ofBlock filled) := by
  intro assembly filled after hrun hwithin hheld
  obtain ⟨store, log, rfl, hcases⟩ := Placement.hoistMixins_eq_ok hrun
  rcases hcases with ⟨-, rfl, rfl⟩ | ⟨rfl, hfilled⟩
  · have hsame := hheld.subset h
    exact ⟨⟨.refl _, hwithin.store, hwithin.registry, hwithin.mixins⟩, hsame⟩
  · have hknown : assembly.store.Known K (blockIds (.ofBlock filled)) := by
      obtain ⟨hid, hnodes⟩ := known_ofBlock.mp (hwithin.store.known_read (hheld.subset h))
      rw [hfilled]
      refine known_ofBlock.mpr ⟨hid, ?_⟩
      rw [List.flatMap_append]
      refine known_append.mpr ⟨fun id hid => ?_, hnodes⟩
      obtain ⟨node, hnode, hstands⟩ := List.mem_flatMap.mp hid
      exact hwithin.mixins id
        (List.mem_flatMap.mpr ⟨node, (List.mem_filter.mp hnode).1, hstands⟩)
    exact ⟨keeps_write hwithin hknown log, hknown⟩

theorem confined_composeLayout (hcompose : ConfinesCompose K compose) (layout : Layout)
    (held : List BlockId) :
    Confined id K held (composeLayout compose source layout) fun root =>
      blockIds (.ofBlock root) := by
  intro assembly root after hrun hwithin hheld
  obtain ⟨composed, middle, hlayout, hhoist⟩ := Placement.composeLayout_eq_ok hrun
  -- the layout has mixins of its own
  have hempty : (Placement.forLayout assembly).Within K := ⟨hwithin.store, hwithin.registry, nofun⟩
  obtain ⟨hkeeps, hroot⟩ := hcompose _ [] _ _ _ hlayout hempty nofun
  have hmiddle : assembly.Keeps K { middle with mixins := assembly.mixins } :=
    ⟨hkeeps.changes, hkeeps.within.store, hkeeps.within.registry,
      hwithin.mixins.mono hkeeps.changes.next⟩
  obtain ⟨hhoisted, hresult⟩ :=
    confined_hoistMixins layout (List.Subset.refl _) _ _ _ hhoist hmiddle.within hroot
  exact ⟨hmiddle.trans hhoisted, hresult⟩

theorem confined_composeStep (hcompose : ConfinesCompose K compose) :
    ConfinesCompose K (composeStep config compose) := by
  intro source held assembly composed after hrun hwithin hheld
  obtain ⟨nodes, layout?, read, hread, hrest⟩ := Placement.composeStep_eq_ok hrun
  obtain ⟨hkeeps, hnodes⟩ := confined_readStatements hcompose held _ _ _ hread hwithin hheld
  cases layout? with
  | none =>
      obtain ⟨hroot, hresult⟩ := confined_newRoot source.filename (List.Subset.refl _) _ _ _ hrest
        hkeeps.within hnodes
      exact ⟨hkeeps.trans hroot, hresult⟩
  | some layout =>
      obtain ⟨hlayout, hresult⟩ := confined_composeLayout hcompose layout [] _ _ _ hrest
        hkeeps.within nofun
      exact ⟨hkeeps.trans hlayout, hresult⟩

/-- **Composing a template is confined**, with all the templates it leads to. -/
theorem confined_composeWith (config : Config) (fuel : Nat) :
    ConfinesCompose K (composeWith config fuel) := by
  induction fuel with
  | zero => exact fun _ _ => confined_throw _
  | succ fuel ih => exact confined_composeStep ih

end Templates

end Stencil
