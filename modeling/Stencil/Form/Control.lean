import Stencil.Form

/-! # Control forms — statements that carry host code

    Conditionals, loops, switches, assignments and raw code lines.
    Conditionals, `while` and assignments are turned into statements of the
    host language; the expressions themselves are carried as they are. -/

namespace Stencil.Form

/-- The form `case expression`. -/
def caseHead : Form := keywordLine "case" (.bare .case)

/-- Any character of a `when` expression: no line feed and no colon. -/
def inWhen (c : Char) : Bool := inLine c && c != ':'

/-- The form `when expression`, with an optional colon before a body on the line. -/
def whenArm : Form := fun text => do
  let (expression, after) ← spacedRun? 1 inWhen (← afterWord? "when".toList text)
  let (colon, rest) := optionalColon after
  return { lexeme := .bare .when (String.ofList (Text.trimEnd expression)), colon, rest }

/-- The form `default`, with an optional colon before a body on the line. -/
def defaultArm : Form := fun text => do
  let after ← afterWholeWord? "default" text
  let (colon, rest) := optionalColon (Text.dropSpaces after)
  return { lexeme := .bare .default "", colon, rest }

/-- A control statement of the host language. -/
def controlCode (code : String) : Lexeme := .code code false false

/-- The form of a keyword, and the statement that the trimmed rest of the line gives. -/
def conditionOf (word : String) (code : String → String) : Form := fun text => do
  let after ← afterWholeWord? word text
  let (line, rest) := Text.splitLine after
  return { lexeme := controlCode (code (String.ofList (Text.trim line))), rest }

/-- The forms `if`, `unless`, `else if` and `else`. -/
def conditional : Form := fun text =>
  conditionOf "if" (fun test => "if (" ++ test ++ ")") text
    <|> conditionOf "unless" (fun test => "if (!(" ++ test ++ "))") text
    <|> conditionOf "else if" (fun test => "else if (" ++ test ++ ")") text
    <|> conditionOf "else" (fun _ => "else") text

/-- The key variable of a loop that names none. -/
def defaultKey : String := "$index"

/-- A comma and a key variable, with spaces around the comma. -/
def loopKey? (text : List Char) : Option (List Char × List Char) := do
  let after ← afterWord? [','] (Text.dropSpaces text)
  run? Text.isWord (Text.dropSpaces after)

/-- The word `in` behind a space, and the rest of the line. -/
def loopSource? (text : List Char) : Option (List Char × List Char) :=
  if text.head? == some ' ' then do
    let after ← afterWord? "in".toList (Text.dropSpaces text)
    spacedRun? 0 inLine after
  else none

/-- Takes a dash and the spaces after it when one is at the front. -/
def dropDash (text : List Char) : List Char :=
  match text with
  | '-' :: after => Text.dropSpaces after
  | _ => text

/-- The key variable of a loop and the text after it; without one, the default key. -/
def loopKey (text : List Char) : String × List Char :=
  match loopKey? text with
  | some (key, after) => (String.ofList key, after)
  | none => (defaultKey, text)

/-- The form `each variable, key in expression`, also written with `for` or behind a dash; the
    key may be left out. -/
def eachHead : Form := fun text => do
  let text := dropDash text
  let after ← afterWord? "each".toList text <|> afterWord? "for".toList text
  if after.head? != some ' ' then none
  let (name, after) ← run? Text.isWord (Text.dropSpaces after)
  let (key, after) := loopKey after
  let (source, rest) ← loopSource? after
  return { lexeme := .each (String.ofList name) key (String.ofList source), rest }

/-- The form `while expression`. -/
def whileHead : Form := keywordLine "while" fun test => controlCode ("while (" ++ test ++ ")")

/-- Any character of an assigned expression: no line feed and no semicolon. -/
def inAssigned (c : Char) : Bool := inLine c && c != ';'

/-- Takes a semicolon and the spaces after it when one is at the front. -/
def dropSemicolon (text : List Char) : List Char :=
  match text with
  | ';' :: after => Text.dropSpaces after
  | _ => text

/-- The form `name = expression`, ended by a semicolon or the line. -/
def assignment : Form := fun text => do
  let (name, after) ← run? Text.isWord text
  if after.head? != some ' ' then none
  let after ← afterWord? ['='] (Text.dropSpaces after)
  let (value, after) ← spacedRun? 0 inAssigned after
  let value := String.ofList (Text.trimEnd value)
  return {
    lexeme := controlCode ("var " ++ String.ofList name ++ " = (" ++ value ++ ");")
    rest := dropSemicolon after }

/-- The form of a code sign followed by a non-empty rest of the line. -/
def signedCode (sign : String) (buffer escape : Bool) : Form := fun text => do
  let (line, rest) ← run? inLine (← afterWord? sign.toList text)
  return { lexeme := .code (String.ofList (Text.trim line)) buffer escape, rest }

/-- The forms `= expression`, `!= expression` and `- statement`. -/
def codeLine : Form := fun text =>
  signedCode "!=" true false text <|> signedCode "=" true true text
    <|> signedCode "-" false false text

end Stencil.Form
