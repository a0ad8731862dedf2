import Stencil.Document
import Stencil.Node.Edit
import Stencil.Node.Inline
import Stencil.Proofs.Outline.RoundTrip
import Stencil.Proofs.Lexer.Balance
import Stencil.Proofs.Lexer.Transparency
import Stencil.Proofs.Registry.Override
import Stencil.Proofs.Grammar.Ensures
import Stencil.Proofs.Grammar.Termination
import Stencil.Proofs.Placement.Account
import Stencil.Proofs.Placement.Chain
import Stencil.Proofs.Placement.Contents
import Stencil.Proofs.Placement.Once
import Stencil.Proofs.Attribute.RoundTrip
import Stencil.Proofs.Attribute.Agreement
import Stencil.Proofs.Attribute.Exposure
import Stencil.Proofs.Composition.Ancestry
import Stencil.Proofs.Composition.Isolation
import Stencil.Proofs.Grammar.Indented
import Stencil.Proofs.Lexer.LineNumbers
import Stencil.Proofs.Lexer.ListEnd
import Stencil.Proofs.Composition.Culprit
import Stencil.Proofs.Composition.SharedMixins
import Stencil.Proofs.Node.Markers
import Stencil.Proofs.Lexer.Siblings
import Stencil.Proofs.Composition.Filling
import Stencil.Proofs.Composition.BlankLines
import Stencil.Proofs.Lexer.MixedIndentation
import Stencil.Proofs.Registry.Conservation
import Stencil.Proofs.Composition.Extending
import Stencil.Proofs.Attribute.Separation
import Stencil.Proofs.Attribute.Interpolated
import Stencil.Proofs.Lexer.Arguments
import Stencil.Proofs.Lexer.Expressions
import Stencil.Proofs.Node.Visits
import Stencil.Proofs.Node.Inline
import Stencil.Proofs.Text.Literal
import Stencil.Proofs.Composition.BareElements
import Stencil.Proofs.Attribute.Names
import Stencil.Proofs.Grammar.RawBase
