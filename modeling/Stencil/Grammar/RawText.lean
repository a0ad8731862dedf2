import Stencil.Grammar.Basic

/-! # Raw bodies — lines taken as they stand

    The body of a filter or of a raw text element is read line by line.  Every
    line becomes a text node that keeps the indentation it has beyond the first
    line of the outermost body. -/

namespace Stencil.Parse

/-- The indentation width that a token opens. -/
def indentWidth (token : Token) : Nat :=
  match token.lexeme with
  | .indent width => width
  | _ => 0

/-- Reads the lines of a raw body, `deeper` reading a body inside it; the fuel bounds the number
    of tokens. -/
def rawLinesWith (template : Template) (deeper : Parse (Block BlockId Draft)) (indent : Nat) :
    Nat → Parse (List Draft)
  | 0 => throw ⟨.exhausted, {}⟩
  | fuel + 1 => do
      let token ← peek template
      match token.kind with
      | .outdent => return []
      | .newline =>
          discard (advance template)
          rawLinesWith template deeper indent fuel
      | .indent =>
          let block ← deeper
          let nodes ← rawLinesWith template deeper indent fuel
          return block.nodes ++ nodes
      | _ =>
          let line ← advance template
          let text := String.ofList (List.replicate indent ' ') ++ line.value
          let node ← newNode line.line (.text text)
          let nodes ← rawLinesWith template deeper indent fuel
          return node :: nodes

/-- Reads an indented raw body; the fuel bounds how deep bodies lie inside one another. -/
def rawBlockWith (template : Template) : Nat → Parse (Block BlockId Draft)
  | 0 => throw ⟨.exhausted, {}⟩
  | fuel + 1 => do
      let token ← expect template .indent
      let width := indentWidth token
      let base := (← get).rawBase.getD width
      modify fun progress => { progress with rawBase := some base }
      let nodes ← rawLinesWith template (rawBlockWith template fuel) (width - base)
        (← tokenBound)
      modify fun progress =>
        if progress.rawBase = some width then { progress with rawBase := none } else progress
      discard (expect template .outdent)
      newBlock token.line nodes

/-- Reads an indented raw body, with lines taken as they stand until its end. -/
def rawBlock (template : Template) : Parse (Block BlockId Draft) := do
  setMode .raw
  let block ← rawBlockWith template (← tokenBound)
  setMode .markup
  return block

end Stencil.Parse
