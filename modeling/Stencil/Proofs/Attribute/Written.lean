import Stencil.Attribute.Scanner

/-! # Written attributes — what can stand in an attribute list

    A name is a trimmed text without the characters that mean something in a
    list.  A value is a trimmed text in which quotes and brackets are paired:
    string literals, parentheses with anything in them, and flat brackets and
    braces (`WellNested`).  An entry of a list is a name with or without a value,
    escaped or not, and a list is written with a comma or a line feed between its
    entries. -/

namespace Stencil.Attribute

/-- Commas and line feeds, which end an attribute. -/
def isSeparator (c : Char) : Bool := c == ',' || c == '\n'

/-- Parentheses, brackets and braces. -/
def isBracket (c : Char) : Bool :=
  c == '(' || c == '[' || c == '\x7b' || c == ')' || c == ']' || c == '\x7d'

/-! ## Values -/

/-- What a part of a value is enclosed by. -/
inductive Enclosure where
  /-- Nothing. -/
  | none
  /-- Parentheses, in which groups may be opened. -/
  | parentheses
  /-- Brackets or braces, in which no group is opened. -/
  | brackets

/-- The characters that stand for themselves inside an enclosure. -/
def Enclosure.Plain : Enclosure → Char → Prop
  | none, c => isSeparator c = false ∧ Text.isQuote c = false ∧ isBracket c = false
  | parentheses, c => Text.isQuote c = false ∧ c ≠ '(' ∧ c ≠ ')'
  | brackets, c => Text.isQuote c = false ∧ isBracket c = false

instance : (around : Enclosure) → (c : Char) → Decidable (around.Plain c)
  | .none, _ => inferInstanceAs (Decidable (_ ∧ _ ∧ _))
  | .parentheses, _ => inferInstanceAs (Decidable (_ ∧ _ ∧ _))
  | .brackets, _ => inferInstanceAs (Decidable (_ ∧ _))

/-- Texts in which every quote and every group is closed. -/
inductive WellNested : Enclosure → List Char → Prop where
  | nil {around : Enclosure} : WellNested around []
  | char {around : Enclosure} {c : Char} {rest : List Char} (plain : around.Plain c)
      (after : WellNested around rest) : WellNested around (c :: rest)
  /-- A string literal, which may hold anything but its own quote. -/
  | literal {around : Enclosure} {quote : Char} {body rest : List Char}
      (isQuote : Text.isQuote quote = true) (unquoted : quote ∉ body)
      (after : WellNested around rest) : WellNested around (quote :: (body ++ quote :: rest))
  /-- Parentheses, to any depth. -/
  | group {around : Enclosure} {inner rest : List Char} (outside : around ≠ .brackets)
      (within : WellNested .parentheses inner) (after : WellNested around rest) :
      WellNested around ('(' :: (inner ++ ')' :: rest))
  | array {inner rest : List Char} (within : WellNested .brackets inner)
      (after : WellNested .none rest) : WellNested .none ('[' :: (inner ++ ']' :: rest))
  | object {inner rest : List Char} (within : WellNested .brackets inner)
      (after : WellNested .none rest) : WellNested .none ('\x7b' :: (inner ++ '\x7d' :: rest))

/-! ## Lists -/

/-- A name that can be written down. -/
structure WrittenName where
  text : String
  nonempty : text.toList ≠ []
  trimmed : Text.trim text.toList = text.toList
  plain : ∀ c ∈ text.toList, isSeparator c = false ∧ Text.isQuote c = false
    ∧ isBracket c = false ∧ c ≠ '=' ∧ c ≠ ':' ∧ c ≠ '!'

/-- A value that can be written down. -/
structure WrittenValue where
  text : String
  nonempty : text.toList ≠ []
  trimmed : Text.trim text.toList = text.toList
  nested : WellNested .none text.toList
  uninterpolated : ¬ ['#', '\x7b'] <:+: text.toList

/-- An attribute that can be written down. -/
structure Entry where
  name : WrittenName
  value : Option WrittenValue
  escaped : Bool

/-- The attribute that an entry stands for. -/
def Entry.attribute (entry : Entry) : Attribute where
  value := match entry.value with
    | some value => .text value.text
    | none => .flag
  escaped := entry.escaped

/-- An entry as a map records it. -/
def Entry.binding (entry : Entry) : String × Attribute := (entry.name.text, entry.attribute)

/-- The character between a name and a value. -/
def equalsSign (colons : Bool) : Char := if colons then ':' else '='

/-- An entry as it is written. -/
def Entry.write (colons : Bool) (entry : Entry) : List Char :=
  match entry.value, entry.escaped with
  | some value, true => entry.name.text.toList ++ equalsSign colons :: value.text.toList
  | some value, false =>
      entry.name.text.toList ++ '!' :: equalsSign colons :: value.text.toList
  | none, true => entry.name.text.toList
  | none, false => '!' :: entry.name.text.toList

/-- What stands between two entries. -/
inductive Separator where
  | comma
  | lineFeed

/-- A separator as it is written. -/
def Separator.char : Separator → Char
  | comma => ','
  | lineFeed => '\n'

/-- A list as it is written: every entry with the separator behind it, if another entry follows. -/
def writeList (colons : Bool) : List (Entry × Separator) → List Char
  | [] => []
  | [last] => last.1.write colons
  | (entry, separator) :: next :: others =>
      entry.write colons ++ separator.char :: writeList colons (next :: others)

end Stencil.Attribute
