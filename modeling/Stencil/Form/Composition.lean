import Stencil.Form

/-! # Composition forms — statements that put templates together

    `extends` and `include` with a path, the heads of named blocks, `yield`,
    mixin definitions with their parameters and mixin calls with their
    arguments. -/

namespace Stencil.Form

/-- The form `yield`. -/
def yieldMark : Form := fun text => do
  let after ← afterWholeWord? "yield" text
  return { lexeme := .bare .yield "", rest := Text.dropSpaces after }

/-- The form `extends path`, also written `extend path`. -/
def extendsPath : Form := fun text =>
  keywordLine "extends" (.bare .extends) text <|> keywordLine "extend" (.bare .extends) text

/-- The form `include path`. -/
def includePath : Form := keywordLine "include" (.bare .include)

/-- The form `append name`. -/
def appendBlock : Form := keywordLine "append" (.block · .append)

/-- The form `prepend name`. -/
def prependBlock : Form := keywordLine "prepend" (.block · .prepend)

/-- A mode written before the name of a block, with the spaces after it. -/
def modeWord? (text : List Char) : Option (BlockMode × List Char) :=
  let spaced (mode : BlockMode) : Option (BlockMode × List Char) := do
    let after ← afterWord? mode.name.toList text
    if after.head? == some ' ' then some (mode, Text.dropSpaces after) else none
  spaced .prepend <|> spaced .append

/-- The form `block name`, with an optional mode before the name; the name is the rest of the
    line. -/
def namedBlock : Form := fun text => do
  let after := Text.dropSpaces (← afterWholeWord? "block" text)
  let (mode, after) := (modeWord? after).getD (.replace, after)
  let (name, rest) := Text.splitLine after
  return { lexeme := .block (String.ofList name) mode, rest }

/-- The text up to the last closing parenthesis of the line, and the text after it. -/
def uptoLastParen? (text : List Char) : Option (List Char × List Char) :=
  let (line, after) := Text.splitLine text
  match line.reverse.dropWhile (· != ')') with
  | [] => none
  | _ :: inside => some (inside.reverse, line.drop (inside.length + 1) ++ after)

/-- The text up to the first closing parenthesis of the line, and the text after it. -/
def uptoFirstParen? (text : List Char) : Option (List Char × List Char) :=
  let inside := text.takeWhile fun c => inLine c && c != ')'
  match text.dropWhile fun c => inLine c && c != ')' with
  | ')' :: after => some (inside, after)
  | _ => none

/-- The form `mixin name(parameters)`; the parameters run to the last parenthesis of the line
    and may be left out. -/
def mixinHead : Form := fun text => do
  let after ← afterWord? "mixin".toList text
  let (name, after) ← spacedRun? 1 Text.isNamePart after
  let name := String.ofList name
  match Text.dropSpaces after with
  | '(' :: inside =>
      match uptoLastParen? inside with
      | some (args, rest) => return { lexeme := .mixin name (some (String.ofList args)), rest }
      | none => return { lexeme := .mixin name none, rest := after }
  | _ => return { lexeme := .mixin name none, rest := after }

/-- Whether a text between parentheses starts like an attribute: a name and an equals sign. -/
def attributeLike (text : List Char) : Bool :=
  match run? Text.isNamePart (Text.dropSpaces text) with
  | some (_, after) => (Text.dropSpaces after).head? == some '='
  | none => false

/-- The form `+name(arguments)`; the arguments run to the first closing parenthesis, may be left
    out, and are left to the attribute list when they start like an attribute. -/
def mixinCall : Form := fun text => do
  let (name, after) ← run? Text.isNamePart (← afterWord? ['+'] text)
  let name := String.ofList name
  match Text.dropSpaces after with
  | '(' :: inside =>
      match uptoFirstParen? inside with
      | some (args, rest) =>
          if attributeLike args then return { lexeme := .call name none, rest := after }
          else return { lexeme := .call name (some (String.ofList args)), rest }
      | none => return { lexeme := .call name none, rest := after }
  | _ => return { lexeme := .call name none, rest := after }

end Stencil.Form
