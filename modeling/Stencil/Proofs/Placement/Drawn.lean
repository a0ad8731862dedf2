import Mathlib.Data.List.Perm.Subperm
import Stencil.Proofs.Grammar.Ensures
import Stencil.Proofs.Placement.Mention

/-! # Drawings — how the statements of a template are put together

    A template's statements are drawn from left to right: identities are taken,
    nodes are put below new ones, and named blocks are defined.  `Drawn` lists
    these steps and nothing else, with a book of the store, the named blocks and
    the mentions so far.  Two things are kept track of on the way:

    * `loose` are the identities that were taken and stand for no node yet, so
      that no two nodes can have one identity;
    * `tops` are the mentions whose blocks are among the nodes drawn, outside of
      other mentions.

    The rules below say what the smallest readers draw. -/

namespace Stencil

/-- The store, the named blocks, and the mentions so far. -/
structure Placement.Book where
  store : Store Draft := {}
  registry : Registry Draft := .empty
  ledger : Placement.Ledger := []

namespace Placement

/-- Defines a named block, with the given mentions directly inside it: the block to place, and the
    book afterwards. -/
def Book.define (book : Book) (owner : Nat) (name : String) (block : Block BlockId Draft)
    (inside : List Nat) : Block BlockId Draft × Book :=
  let defined := book.registry.define book.store name block owner
  (defined.block,
    { store := defined.store, registry := defined.registry,
      ledger := book.ledger ++ [{ owner, name, mode := block.props.mode, inside }] })

/-- How nodes are drawn in a template, from one book to another. -/
inductive Drawn (owner : Nat) :
    Book → List BlockId → List Nat → List Draft → Book → Prop where
  /-- Nothing is drawn. -/
  | nothing (book : Book) : Drawn owner book [] [] [] book
  /-- An identity is taken. -/
  | take (book : Book) :
      Drawn owner book [book.store.next] [] [] { book with store := book.store.taken }
  /-- Identities are not used. -/
  | drop {book after : Book} {loose kept : List BlockId} {tops : List Nat} {nodes : List Draft} :
      Drawn owner book loose tops nodes after → kept.Subperm loose →
        Drawn owner book kept tops nodes after
  /-- One part is drawn after another. -/
  | append {book middle after : Book} {loose more : List BlockId} {tops others : List Nat}
      {nodes next : List Draft} :
      Drawn owner book loose tops nodes middle → Drawn owner middle more others next after →
        Drawn owner book (loose ++ more) (tops ++ others) (nodes ++ next) after
  /-- The last nodes are put below a new one. -/
  | wrap {book after : Book} {loose : List BlockId} {tops : List Nat} {nodes : List Draft}
      {id : BlockId} {node : Draft} :
      Drawn owner book (id :: loose) tops (nodes ++ node.children) after → node.id? = some id →
        Drawn owner book loose tops (nodes ++ [node]) after
  /-- A named block is defined, and the one that is to be placed takes its place. -/
  | named {book after : Book} {tops : List Nat} (name : String) (block : Block BlockId Draft) :
      Drawn owner book [block.id] tops block.nodes after →
        Drawn owner book [] [after.ledger.length]
          [.ofBlock (after.define owner name block tops).1]
          (after.define owner name block tops).2

/-- Since a book, nodes were drawn up to the present state. -/
def Held (owner : Nat) (start : Book) (loose : List BlockId) (nodes : List Draft) :
    Parse.Condition :=
  fun store registry =>
    ∃ tops ledger, Drawn owner start loose tops nodes { store, registry, ledger }

section Held

variable {owner : Nat} {start : Book} {loose kept : List BlockId} {nodes : List Draft}
  {store : Store Draft} {registry : Registry Draft}

theorem Held.drop (h : Held owner start loose nodes store registry) (hkept : kept.Subperm loose) :
    Held owner start kept nodes store registry := by
  obtain ⟨tops, ledger, hdrawn⟩ := h
  exact ⟨tops, ledger, hdrawn.drop hkept⟩

theorem Held.take (h : Held owner start loose nodes store registry) :
    Held owner start (store.next :: loose) nodes store.taken registry := by
  obtain ⟨tops, ledger, hdrawn⟩ := h
  refine ⟨tops, ledger, ?_⟩
  have htaken := hdrawn.append (.take { store, registry, ledger })
  rw [List.append_nil, List.append_nil] at htaken
  exact htaken.drop (List.perm_append_singleton _ _).symm.subperm

theorem Held.wrap {id : BlockId} (node : Draft)
    (h : Held owner start (id :: loose) (nodes ++ node.children) store registry)
    (hid : node.id? = some id) : Held owner start loose (nodes ++ [node]) store registry := by
  obtain ⟨tops, ledger, hdrawn⟩ := h
  exact ⟨tops, ledger, hdrawn.wrap hid⟩

/-- A block is put around its nodes. -/
theorem Held.close {block : Block BlockId Draft}
    (h : Held owner start (block.id :: loose) (nodes ++ block.nodes) store registry) :
    Held owner start loose (nodes ++ [.ofBlock block]) store registry :=
  Held.wrap (.ofBlock block) h rfl

end Held

open Parse

variable {α : Type} {owner : Nat} {template : Template}

/-- Successful runs of a reader draw nodes behind those that were drawn before. -/
def Draws (owner : Nat) (reader : Parse α) (loose : α → List BlockId)
    (content : α → List Draft) : Prop :=
  ∀ start taken nodes, Ensures (Held owner start taken nodes) reader fun result =>
    Held owner start (loose result ++ taken) (nodes ++ content result)

/-- A reader of a statement: it draws one node. -/
abbrev DrawsNode (owner : Nat) (reader : Parse Draft) : Prop :=
  Draws owner reader (fun _ => []) fun node => [node]

/-- A reader of a block that is not placed yet: it draws the nodes of the block. -/
abbrev DrawsBlock (owner : Nat) (reader : Parse (Block BlockId Draft)) : Prop :=
  Draws owner reader (fun block => [block.id]) Block.nodes

/-- What a reader draws can be told from the state it starts in. -/
theorem draws_of_start {reader : Parse α} {loose : α → List BlockId} {content : α → List Draft}
    (h : ∀ start, Ensures (fun store registry => store = start.store ∧ registry = start.registry)
      reader fun result => Held owner start (loose result) (content result)) :
    Draws owner reader loose content := by
  intro start taken nodes progress result after hrun
  refine ⟨(h {} progress result after hrun).1, fun hsame hheld => ?_⟩
  obtain ⟨tops, ledger, hdrawn⟩ := hheld
  obtain ⟨-, hpost⟩ := h ⟨_, _, ledger⟩ progress result after hrun
  obtain ⟨others, after', hmore⟩ := hpost hsame ⟨rfl, rfl⟩
  exact ⟨tops ++ others, after', (hdrawn.append hmore).drop (List.perm_append_comm).subperm⟩

/-- What a reader draws, told from the state it starts in. -/
theorem Draws.from {reader : Parse α} {loose : α → List BlockId} {content : α → List Draft}
    (h : Draws owner reader loose content) (start : Book) :
    Ensures (fun store registry => store = start.store ∧ registry = start.registry) reader
      fun result => Held owner start (loose result) (content result) := by
  refine (h start [] []).imp ?_ ?_
  · rintro store registry ⟨rfl, rfl⟩
    exact ⟨[], start.ledger, .nothing start⟩
  · intro result store registry hheld
    rwa [List.append_nil, List.nil_append] at hheld

section Readers

variable {start : Book} {taken : List BlockId} {nodes : List Draft}

theorem ensures_freshId :
    Ensures (Held owner start taken nodes) freshId fun id =>
      Held owner start (id :: taken) nodes := by
  rintro progress _ _ ⟨⟩
  exact ⟨Nat.le_refl _, fun _ => Held.take⟩

/-- A new block takes an identity. -/
theorem ensures_newBlock {β : Type} (line : Int) (content : List Draft) (props : BlockProps)
    {next : Block BlockId Draft → Parse β} {post : β → Condition}
    (h : ∀ id, Ensures (Held owner start (id :: taken) nodes)
      (next { id, line, props, nodes := content }) post) :
    Ensures (Held owner start taken nodes) (newBlock line content props >>= next) post := by
  rw [newBlock, bind_assoc]
  exact ensures_freshId.bind fun id => by
    rw [pure_bind]
    exact h id

/-- The nodes drawn last become the contents of a new block. -/
theorem ensures_blockOf (line : Int) (content : List Draft) (props : BlockProps) :
    Ensures (Held owner start taken (nodes ++ content)) (newBlock line content props) fun block =>
      Held owner start ([block.id] ++ taken) (nodes ++ block.nodes) := by
  rw [← bind_pure (newBlock line content props)]
  exact ensures_newBlock line content props fun id => ensures_pure fun _ _ hheld => hheld

/-- A new node is put around its parts. -/
theorem ensures_newNode (line : Int) {kind : Kind BlockId} {blocks : List (Block BlockId Draft)}
    {code : Option Draft}
    (hkind : ∀ own children, (Node.make own line kind children).id? = own) :
    Ensures (Held owner start taken (nodes ++ (code.toList ++ blocks.map Node.ofBlock)))
      (newNode line kind blocks code) fun node => Held owner start taken (nodes ++ [node]) :=
  ensures_freshId.bind fun id => ensures_pure fun _ _ hheld =>
    Held.wrap (.make (some id) line kind (code.toList ++ blocks.map Node.ofBlock)) hheld (hkind _ _)

/-- A new node without parts. -/
theorem ensures_newLeaf (line : Int) {kind : Kind BlockId}
    (hkind : ∀ own children, (Node.make own line kind children).id? = own) :
    Ensures (Held owner start taken nodes) (newNode line kind) fun node =>
      Held owner start taken (nodes ++ [node]) := by
  refine Ensures.of_imp (fun _ _ hheld => ?_) (ensures_newNode line hkind)
  rwa [Option.toList_none, List.map_nil, List.append_nil, List.append_nil]

/-- A new node around a block that was read before. -/
theorem ensures_newNode_block (line : Int) {kind : Kind BlockId} {block : Block BlockId Draft}
    (hkind : ∀ own children, (Node.make own line kind children).id? = own) :
    Ensures (Held owner start ([block.id] ++ taken) (nodes ++ block.nodes))
      (newNode line kind [block]) fun node => Held owner start taken (nodes ++ [node]) :=
  (ensures_newNode line hkind).of_imp fun _ _ hheld => hheld.close

end Readers

end Placement

end Stencil
