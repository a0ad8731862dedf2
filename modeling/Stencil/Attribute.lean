import Stencil.OrderedMap

/-! # Attributes — named values of an element

    An attribute has a value of opaque expression text, or stands alone as a
    flag.  Its value is escaped on output unless its definition says not to. -/

namespace Stencil

/-- The value of an attribute. -/
inductive AttributeValue where
  /-- The attribute stands without a value. -/
  | flag
  /-- Expression text of the host language. -/
  | text (expression : String)
deriving Repr, DecidableEq

/-- An attribute's value, and whether it is escaped on output. -/
structure Attribute where
  value : AttributeValue
  escaped : Bool := true
deriving Repr, DecidableEq

/-- Attributes by name, in the order of their first mention. -/
abbrev Attributes := OrderedMap String Attribute

end Stencil
