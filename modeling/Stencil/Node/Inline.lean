import Stencil.Node

/-! # Inline content — what fits on the line of its element

    An element is inline by its name.  A body fits on the line of its element
    when its nodes are texts, inline elements and blocks all the way down, and
    no two texts stand next to each other in it, since they would run together. -/

namespace Stencil

/-- The names of inline elements. -/
def inlineNames : List String :=
  ["a", "abbr", "acronym", "b", "br", "code", "em", "font", "i", "img", "ins", "kbd", "map",
   "samp", "small", "span", "strong", "sub", "sup"]

/-- Whether an element is inline. -/
def Element.isInline (element : Element) : Bool := inlineNames.contains element.name

namespace Node

variable {ι : Type}

/-- Whether a node is an inline element. -/
def isInline (node : Node ι) : Bool :=
  match node.kind with
  | .tag element _ => element.isInline
  | _ => false

/-- Whether a node is a line of text. -/
def isText (node : Node ι) : Bool :=
  match node.kind with
  | .text _ => true
  | _ => false

mutual

/-- Whether a node is a text, an inline element or a block, and its contents are too. -/
def inlineSafe : Node ι → Bool
  | make _ _ kind children =>
      match kind with
      | .text _ => true
      | .tag element _ => element.isInline && bodySafe children
      | .block _ _ => allSafe children
      | _ => false

/-- Whether every node of a list is inline-safe. -/
def allSafe : List (Node ι) → Bool
  | [] => true
  | node :: nodes => inlineSafe node && allSafe nodes

/-- Whether the blocks of a list are inline-safe. -/
def bodySafe : List (Node ι) → Bool
  | [] => true
  | node :: nodes => (!node.isBlock || inlineSafe node) && bodySafe nodes

end

/-- Whether two texts stand next to each other. -/
def hasAdjacentTexts : List (Node ι) → Bool
  | first :: second :: rest =>
      (first.isText && second.isText) || hasAdjacentTexts (second :: rest)
  | _ => false

/-- Whether the body of an element fits on the line of the element. -/
def canInline (node : Node ι) : Bool :=
  match (node.body?.map Block.nodes).getD [] with
  | [] => true
  | [only] => inlineSafe only
  | nodes => allSafe nodes && !hasAdjacentTexts nodes

end Node

end Stencil
