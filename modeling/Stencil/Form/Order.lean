import Stencil.Form.Composition
import Stencil.Form.Control
import Stencil.Form.Markup

/-! # The order of the forms — the first match wins

    Keywords come before element names, so that `case`, `block`, `include` and
    their like are never elements; text comes last and takes every line that no
    other form wants. -/

namespace Stencil.Form

/-- The forms of statements, in the order in which they are tried. -/
def ordered : List Form :=
  [yieldMark, doctype, interpolatedTag, caseHead, whenArm, defaultArm, extendsPath, appendBlock,
   prependBlock, namedBlock, includePath, mixinHead, mixinCall, conditional, eachHead, whileHead,
   assignment, tagName, filterName, codeLine, idName, className, comment, textLine]

/-- The first form that matches. -/
def first? (text : List Char) : Option Match := ordered.findSome? fun form => form text

end Stencil.Form
