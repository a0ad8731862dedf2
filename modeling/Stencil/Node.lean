import Stencil.Attribute
import Stencil.Token
import Stencil.Text.Literal

/-! # Nodes — the tree of a template

    A tree is made of nodes.  Every node has a line, a kind with the data of
    that kind, and its children in document order:

    * a block has any number of children;
    * an element or a mixin has its inline code, if any, then its body, if any;
    * a loop has its body, then the block for an empty source, if any;
    * code has a body or none; switches, arms, block comments and filters have
      a body; all other nodes have no children.

    A body is always a block.  Every block carries an identity of type `ι`:
    while templates are composed it tells blocks with equal contents apart, and
    in a finished tree it is `Unit`.  The other nodes have an identity too while
    templates are composed, and none in a finished tree. -/

namespace Stencil

/-- The data of a block apart from its identity and its children. -/
structure BlockProps where
  /-- Whether the block marks the place for included content. -/
  isYield : Bool := false
  /-- Whether the block holds raw text. -/
  textOnly : Bool := false
  /-- How the block combines with an earlier one of its name. -/
  mode : BlockMode := .replace
  /-- The template the block comes from. -/
  filename : Option String := none
deriving Repr, DecidableEq

/-- What elements and mixins have in common. -/
structure Element where
  name : String
  attributes : Attributes := .empty
  selfClosing : Bool := false
  /-- Whether the body is raw text. -/
  textOnly : Bool := false
deriving Repr, DecidableEq

namespace Element

/-- Sets an attribute. -/
def setAttribute (element : Element) (name : String) (entry : Attribute) : Element :=
  { element with attributes := element.attributes.insert name entry }

/-- The value of an attribute. -/
def attribute? (element : Element) (name : String) : Option AttributeValue :=
  (element.attributes.get? name).map Attribute.value

/-- Removes an attribute. -/
def removeAttribute (element : Element) (name : String) : Element :=
  { element with attributes := element.attributes.erase name }

end Element

/-- The kinds of node, with their data. -/
inductive Kind (ι : Type) where
  /-- A sequence of nodes. -/
  | block (id : ι) (props : BlockProps)
  /-- An element; `interpolated` when its name is an expression. -/
  | tag (element : Element) (interpolated : Bool)
  /-- The definition of a mixin, or a call of one. -/
  | mixin (element : Element) (args : Option String) (call : Bool)
  /-- A line of text. -/
  | text (value : String)
  /-- Text that goes to the output untouched. -/
  | literal (value : String)
  /-- Host code; `buffer` writes its value to the output, `escape` escapes what is written. -/
  | code (value : String) (buffer escape : Bool)
  /-- A loop over `source`. -/
  | each (source item key : String)
  /-- A switch. -/
  | case (expr : String)
  /-- An arm of a switch. -/
  | when (expr : String)
  /-- A comment of one line. -/
  | comment (value : String) (buffer : Bool)
  /-- A comment with a body. -/
  | blockComment (value : String) (buffer : Bool)
  /-- A document type, which may have no name. -/
  | doctype (name : Option String)
  /-- A filter over raw text. -/
  | filter (name : String) (attributes : OrderedMap String AttributeValue)
deriving Repr, DecidableEq

/-- Applies a function to the identity of a block. -/
def Kind.relabel {ι κ : Type} (f : ι → κ) : Kind ι → Kind κ
  | .block id props => .block (f id) props
  | .tag element interpolated => .tag element interpolated
  | .mixin element args call => .mixin element args call
  | .text value => .text value
  | .literal value => .literal value
  | .code value buffer escape => .code value buffer escape
  | .each source item key => .each source item key
  | .case expr => .case expr
  | .when expr => .when expr
  | .comment value buffer => .comment value buffer
  | .blockComment value buffer => .blockComment value buffer
  | .doctype name => .doctype name
  | .filter name attributes => .filter name attributes

/-- Whether what a node of this kind holds is raw text. -/
def Kind.isTextOnly {ι : Type} : Kind ι → Bool
  | .block _ props => props.textOnly
  | .tag element _ => element.textOnly
  | .mixin element _ _ => element.textOnly
  | .filter _ _ => true
  | _ => false

/-- A node of a tree.  The identity of a block is in its kind; `own` is that of any other
    node. -/
inductive Node (ι : Type) where
  | make (own : Option ι) (line : Int) (kind : Kind ι) (children : List (Node ι))
deriving Repr

/-- A node without an identity of its own. -/
def Node.mk {ι : Type} (line : Int) (kind : Kind ι) (children : List (Node ι)) : Node ι :=
  make none line kind children

instance {ι : Type} : Inhabited (Node ι) := ⟨.mk 0 (.text "") []⟩

/-- A finished tree. -/
abbrev Tree := Node Unit

/-- A block with contents of type `α`. -/
structure Block (ι α : Type) where
  id : ι
  line : Int := 0
  props : BlockProps := {}
  nodes : List α := []
deriving Repr, DecidableEq

namespace Node

variable {ι κ α : Type}

/-- The line of a node. -/
def line : Node ι → Int
  | make _ line _ _ => line

/-- The kind of a node. -/
def kind : Node ι → Kind ι
  | make _ _ kind _ => kind

/-- The children of a node, in document order. -/
def children : Node ι → List (Node ι)
  | make _ _ _ children => children

/-- The identity of a node. -/
def id? : Node ι → Option ι
  | make own _ kind _ =>
      match kind with
      | .block id _ => some id
      | _ => own

/-- Puts other children in. -/
def withChildren : Node ι → List (Node ι) → Node ι
  | make own line kind _, children => make own line kind children

/-- Puts another kind in. -/
def withKind : Node ι → Kind ι → Node ι
  | make own line _ children, kind => make own line kind children

mutual

/-- Computes bottom up: a node's result from its own data and its children's results. -/
def fold (step : Option ι → Int → Kind ι → List α → α) : Node ι → α
  | make own line kind children => step own line kind (foldList step children)

/-- The results of `fold` for every node of a list. -/
def foldList (step : Option ι → Int → Kind ι → List α → α) : List (Node ι) → List α
  | [] => []
  | node :: nodes => fold step node :: foldList step nodes

end

mutual

/-- Decides whether two trees are equal. -/
def decideEq [DecidableEq ι] : (a b : Node ι) → Decidable (a = b)
  | make own line kind children, make own' line' kind' children' =>
      if same : own = own' ∧ line = line' ∧ kind = kind' then
        match decideListEq children children' with
        | isTrue equal => isTrue (by rw [same.1, same.2.1, same.2.2, equal])
        | isFalse differ => isFalse fun h => differ (Node.make.inj h).2.2.2
      else isFalse fun h =>
        same ⟨(Node.make.inj h).1, (Node.make.inj h).2.1, (Node.make.inj h).2.2.1⟩

/-- Decides whether two lists of trees are equal. -/
def decideListEq [DecidableEq ι] : (as bs : List (Node ι)) → Decidable (as = bs)
  | [], [] => isTrue rfl
  | [], _ :: _ => isFalse fun h => nomatch h
  | _ :: _, [] => isFalse fun h => nomatch h
  | a :: as, b :: bs =>
      match decideEq a b, decideListEq as bs with
      | isTrue first, isTrue rest => isTrue (by rw [first, rest])
      | isFalse differ, _ => isFalse fun h => differ (List.cons.inj h).1
      | _, isFalse differ => isFalse fun h => differ (List.cons.inj h).2

end

instance [DecidableEq ι] : DecidableEq (Node ι) := decideEq

/-- The number of nodes of a tree. -/
def size (node : Node ι) : Nat := node.fold fun _ _ _ sizes => sizes.foldr (· + ·) 1

/-- Applies a function to the identity of every node. -/
def relabel (f : ι → κ) (node : Node ι) : Node κ :=
  node.fold fun own line kind children => make (own.map f) line (kind.relabel f) children

/-- A tree without identities. -/
def finished (node : Node ι) : Tree :=
  node.fold fun _ line kind children => mk line (kind.relabel fun _ => ()) children

/-! ## Blocks as nodes -/

/-- The block that a node is. -/
def block? : Node ι → Option (Block ι (Node ι))
  | make _ line (.block id props) nodes => some { id, line, props, nodes }
  | _ => none

/-- Whether a node is a block. -/
def isBlock (node : Node ι) : Bool := node.block?.isSome

/-- The node that a block is. -/
def ofBlock (block : Block ι (Node ι)) : Node ι :=
  mk block.line (.block block.id block.props) block.nodes

/-- Whether a node is code. -/
def isCode (node : Node ι) : Bool :=
  match node.kind with
  | .code _ _ _ => true
  | _ => false

/-! ## Parts of a node -/

/-- The blocks among the children: a body, and the block for an empty source of a loop. -/
def blocks (node : Node ι) : List (Block ι (Node ι)) := node.children.filterMap block?

/-- The body of a node that is not itself a block. -/
def body? (node : Node ι) : Option (Block ι (Node ι)) :=
  if node.isBlock then none else node.blocks.head?

/-- The block of a loop for an empty source. -/
def alternative? (node : Node ι) : Option (Block ι (Node ι)) :=
  if node.isBlock then none else node.blocks[1]?

/-- The inline code of an element or a mixin. -/
def code? (node : Node ι) : Option (Node ι) :=
  if node.isBlock then none else node.children.find? isCode

/-- What a node has in common with elements. -/
def element? (node : Node ι) : Option Element :=
  match node.kind with
  | .tag element _ => some element
  | .mixin element _ _ => some element
  | _ => none

/-- Changes the element of a tag or a mixin. -/
def modifyElement (node : Node ι) (f : Element → Element) : Node ι :=
  match node.kind with
  | .tag element interpolated => node.withKind (.tag (f element) interpolated)
  | .mixin element args call => node.withKind (.mixin (f element) args call)
  | _ => node

/-- The name a node goes by: its name, else its text, else its expression. -/
def label? (node : Node ι) : Option String :=
  match node.kind with
  | .block _ _ => none
  | .tag element _ => some element.name
  | .mixin element _ _ => some element.name
  | .text value => some value
  | .literal value => some value
  | .code value _ _ => some value
  | .each _ item _ => some item
  | .case expr => some expr
  | .when expr => some expr
  | .comment value _ => some value
  | .blockComment value _ => some value
  | .doctype name => name
  | .filter name _ => some name

/-- Whether a node is the arm of a switch for all other cases. -/
def isDefaultArm (node : Node ι) : Bool :=
  match node.kind with
  | .when expr => expr == "default"
  | _ => false

/-- The text of a literal as the body of a single-quoted string. -/
def escapedText? (node : Node ι) : Option String :=
  match node.kind with
  | .literal value => some (String.ofList (Text.escapeLiteral value.toList))
  | _ => none

/-! ## Building nodes -/

/-- A node without children. -/
def leaf (line : Int) (kind : Kind ι) : Node ι := mk line kind []

/-- A node with the parts that are there. -/
def withParts (line : Int) (kind : Kind ι) (code : Option (Node ι))
    (blocks : List (Block ι (Node ι))) : Node ι :=
  mk line kind (code.toList ++ blocks.map ofBlock)

end Node

end Stencil
