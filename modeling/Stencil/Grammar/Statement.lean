import Stencil.Grammar.Composition
import Stencil.Grammar.Element

/-! # Statements — what a token can start -/

namespace Stencil.Parse

/-- Reads a statement, given a reader for the statements inside it. -/
def statementStep (template : Template) (inner : Parse Draft) : Parse Draft := do
  let token ← peek template
  match token.kind with
  | .tag => tagStatement template inner
  | .mixin => mixinStatement template inner
  | .block => blockStatement template inner
  | .case => caseStatement template inner
  | .when => whenStatement template inner
  | .default => defaultStatement template inner
  | .extends => extendsStatement template
  | .include => includeStatement template inner
  | .doctype => doctypeStatement template
  | .filter => filterStatement template
  | .comment => commentStatement template inner
  | .text => textLine template
  | .each => eachStatement template inner
  | .code => codeStatement template inner
  | .call => callStatement template inner
  | .interpolation => interpolatedStatement template inner
  | .yield => yieldStatement template
  | .idName => shorthandStatement template inner
  | .className => shorthandStatement template inner
  | kind => fail template (.unexpected kind) token.line

/-- Reads a statement; the fuel bounds how deep statements lie inside one another. -/
def statementWith (template : Template) : Nat → Parse Draft
  | 0 => throw ⟨.exhausted, {}⟩
  | fuel + 1 => statementStep template (statementWith template fuel)

/-- Reads the statements of a whole template.  Every statement takes a token before the ones
    inside it are read, or puts two in for a shorthand once, so twice the number of tokens bounds
    how deep they lie. -/
def document (template : Template) : Parse (List Draft) := do
  let bound ← tokenBound
  statements template (statementWith template (2 * bound)) .eos

end Stencil.Parse
