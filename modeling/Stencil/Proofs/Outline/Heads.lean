import Stencil.Proofs.Lexer.Elements
import Stencil.Proofs.Outline.Syntax

/-! # Heads — what the forms make of a line

    A line without its indentation is read as its lexeme, whatever lines come
    after it (`first?_print`).  Most lines are settled by their first letters:
    no form that is tried earlier starts with them.  The name of an element is
    the exception, since it may start with any keyword (`TagName.element`). -/

namespace Stencil

open Form

variable {line rest : List Char} {p : Char → Bool}

/-! ## Runs up to the end of the line -/

theorem run?_line (hline : ∀ c ∈ line, p c = true) (hne : line ≠ []) (hrest : Stops p rest) :
    run? p (line ++ rest) = some (line, rest) := by
  simp only [run?, takeWhile_line hline hrest, dropWhile_line hline hrest]
  rw [if_neg (by simpa using hne)]

theorem dropSpaces_line (hne : line ≠ []) (hhead : line.head? ≠ some ' ') :
    Text.dropSpaces (line ++ rest) = line ++ rest := by
  obtain ⟨c, line, rfl⟩ := List.exists_cons_of_ne_nil hne
  have hc : c ≠ ' ' := fun h => hhead (h ▸ rfl)
  rw [Text.dropSpaces, List.cons_append, List.dropWhile_cons_of_neg (by simpa using hc)]

/-- A space and a run with `p` behind it, as far as one space at least is wanted. -/
theorem spacedRun?_stops {least : Nat} (hleast : least ≤ 1) (hline : ∀ c ∈ line, p c = true)
    (hne : line ≠ []) (hhead : line.head? ≠ some ' ') (hrest : Stops p rest) :
    spacedRun? least p (' ' :: (line ++ rest)) = some (line, rest) := by
  have hdrop : Text.dropSpaces (' ' :: (line ++ rest)) = line ++ rest := by
    rw [Text.dropSpaces, List.dropWhile_cons_of_pos (by rfl)]
    exact dropSpaces_line hne hhead
  have hspaces : ¬ ((' ' :: (line ++ rest)).takeWhile (· == ' ')).length < least := by
    rw [List.takeWhile_cons_of_pos (by rfl), List.length_cons]
    omega
  unfold spacedRun?
  simp only [if_neg hspaces, hdrop, run?_line hline hne hrest]

theorem spacedRun?_line {least : Nat} (hleast : least ≤ 1) (hline : ∀ c ∈ line, p c = true)
    (hne : line ≠ []) (hhead : line.head? ≠ some ' ') (hrest : EndsLine rest)
    (hp : p '\n' = false) : spacedRun? least p (' ' :: (line ++ rest)) = some (line, rest) :=
  spacedRun?_stops hleast hline hne hhead (hrest.stops hp)

/-! ## Words -/

theorem OneLine.inLine (words : OneLine) : ∀ c ∈ words.text.toList, Form.inLine c = true :=
  fun c hc => bne_iff_ne.mpr (words.oneLine c hc).1

theorem OneLine.ne_newline (words : OneLine) : ∀ c ∈ words.text.toList, c ≠ '\n' :=
  fun c hc => (words.oneLine c hc).1

theorem OneLine.return_not_mem (words : OneLine) : '\r' ∉ words.text.toList :=
  fun hc => (words.oneLine '\r' hc).2 rfl

namespace Expression

/-- An expression starts with no white space. -/
theorem dropWhile_blank (expression : Expression) :
    expression.text.toList.dropWhile Text.isBlank = expression.text.toList := by
  have hlength := congrArg List.length expression.trimmed
  have hle := (List.dropWhile_sublist (l := (expression.text.toList.dropWhile
    Text.isBlank).reverse) Text.isBlank).length_le
  rw [Text.trim, Text.dropAround, Text.dropEndWhile, List.length_reverse] at hlength
  rw [List.length_reverse, hlength] at hle
  exact (List.dropWhile_suffix _).eq_of_length_le hle

theorem trimEnd (expression : Expression) :
    Text.trimEnd expression.text.toList = expression.text.toList := by
  have htrimmed := expression.trimmed
  rw [Text.trim, Text.dropAround, expression.dropWhile_blank] at htrimmed
  exact htrimmed

theorem head_ne_space (expression : Expression) :
    expression.text.toList.head? ≠ some ' ' := by
  intro hhead
  have hdrop := expression.dropWhile_blank
  cases htext : expression.text.toList with
  | nil => exact expression.nonempty htext
  | cons c text =>
      rw [htext] at hhead hdrop
      obtain rfl : c = ' ' := Option.some.inj hhead
      rw [List.dropWhile_cons_of_pos (by decide)] at hdrop
      have hle := (List.dropWhile_sublist (l := text) Text.isBlank).length_le
      rw [hdrop, List.length_cons] at hle
      omega

theorem trim_spaced (expression : Expression) :
    Text.trim (' ' :: expression.text.toList) = expression.text.toList := by
  rw [Text.trim, Text.dropAround, List.dropWhile_cons_of_pos (by decide)]
  exact expression.trimmed

end Expression

namespace WordName

variable (name : WordName)

theorem exists_cons : ∃ c text, name.text.toList = c :: text ∧ Text.isWord c = true := by
  cases htext : name.text.toList with
  | nil => exact absurd htext name.nonempty
  | cons c text => exact ⟨c, text, rfl, name.word c (htext ▸ List.mem_cons_self)⟩

theorem return_not_mem : '\r' ∉ name.text.toList :=
  fun hc => absurd (name.word '\r' hc) (by decide)

/-- A name starts with no space. -/
theorem dropSpaces (more : List Char) :
    Text.dropSpaces (' ' :: (name.text.toList ++ more)) = name.text.toList ++ more := by
  obtain ⟨c, text, htext, hword⟩ := name.exists_cons
  have hc : c ≠ ' ' := by
    rintro rfl
    exact absurd hword (by decide)
  rw [htext, Text.dropSpaces, List.dropWhile_cons_of_pos (by rfl), List.cons_append,
    List.dropWhile_cons_of_neg (by simpa using hc)]

end WordName

/-! ## Names of elements -/

namespace TagName

variable (name : TagName)

/-- A name of word characters starts with a keyword that is a whole word only if it is one. -/
theorem afterWholeWord?_eq_none {word : String} (hword : word ∈ wholeWords) :
    afterWholeWord? word name.text.toList = none := by
  have hreserved : ∀ word ∈ wholeWords, word ∈ reservedNames := by decide
  rw [afterWholeWord?, Option.filter_eq_none_iff]
  intro more h
  have hname := afterWord?_eq_some_iff.mp h
  cases more with
  | nil =>
      rw [List.append_nil] at hname
      exact absurd (String.toList_inj.mp hname ▸ hreserved word hword) name.free
  | cons c more =>
      have hc : Text.isWord c = true := name.word c (by rw [hname]; simp)
      simp [atWordEnd, hc]

/-- A name as the lexer reads it. -/
def element : ElementName where
  text := name.text
  starts := by
    obtain ⟨c, text, htext, hc⟩ := name.exists_cons
    rw [htext]
    exact hc
  inside c hc := inTagName_of_isWord (name.word c hc)
  uncolonned h := absurd (name.word ':' (List.mem_of_getLast? h)) (by decide)
  free _ hword := name.afterWholeWord?_eq_none hword

end TagName

/-! ## Every line -/

namespace Outline

/-- The variables of a loop are read as far as the space before the next word. -/
theorem run?_variables (loop : Loop) (more : List Char) :
    ∃ after, run? Text.isWord (Head.variables loop ++ ' ' :: 'i' :: more)
        = some (loop.item.text.toList, after)
      ∧ loopKey after = (Head.keyName loop, ' ' :: 'i' :: more) := by
  obtain ⟨item, key, source⟩ := loop
  cases key with
  | none =>
      refine ⟨' ' :: 'i' :: more, ?_, ?_⟩
      · have hstops : Stops Text.isWord (' ' :: 'i' :: more) := by
          rintro c ⟨rfl⟩
          decide
        simpa [Head.variables] using run?_line item.word item.nonempty hstops
      · simp [loopKey, loopKey?, Text.dropSpaces, afterWord?, Head.keyName]
  | some key =>
      refine ⟨", ".toList ++ key.text.toList ++ ' ' :: 'i' :: more, ?_, ?_⟩
      · have hstops : Stops Text.isWord
            (", ".toList ++ key.text.toList ++ ' ' :: 'i' :: more) := by
          rintro c ⟨rfl⟩
          decide
        simpa [Head.variables] using run?_line item.word item.nonempty hstops
      · have hstops : Stops Text.isWord (' ' :: 'i' :: more) := by
          rintro c ⟨rfl⟩
          decide
        have hrun := run?_line key.word key.nonempty hstops
        have hkey : loopKey? (',' :: ' ' :: (key.text.toList ++ ' ' :: 'i' :: more))
            = some (key.text.toList, ' ' :: 'i' :: more) := by
          have hcomma : Text.dropSpaces (',' :: ' ' :: (key.text.toList ++ ' ' :: 'i' :: more))
              = ',' :: ' ' :: (key.text.toList ++ ' ' :: 'i' :: more) := rfl
          simp [loopKey?, hcomma, afterWord?, key.dropSpaces, hrun]
        simp [loopKey, hkey, Head.keyName]

variable (hrest : EndsLine rest)

include hrest

theorem atWordEnd_endsLine : atWordEnd rest = true := by
  cases rest with
  | nil => rfl
  | cons c rest =>
      obtain rfl : c = '\n' := hrest c rfl
      rfl

theorem optionalColon_endsLine : optionalColon rest = (false, rest) := by
  cases rest with
  | nil => rfl
  | cons c rest =>
      obtain rfl : c = '\n' := hrest c rfl
      rfl

theorem first?_tag (name : TagName) :
    first? (name.text.toList ++ rest) = some { lexeme := .tag name.text false, rest } :=
  name.element.first? hrest.endsName

theorem first?_text (content : Content) :
    first? ("| ".toList ++ content.text.toList ++ rest)
      = some { lexeme := .bare .text content.text, rest } := by
  have hline : ∀ c ∈ '|' :: ' ' :: content.text.toList, inLine c = true := by
    simp only [List.forall_mem_cons]
    exact ⟨by decide, by decide, content.inLine⟩
  have hrun : run? inLine ('|' :: ' ' :: (content.text.toList ++ rest))
      = some ('|' :: ' ' :: content.text.toList, rest) :=
    run?_line hline (List.cons_ne_nil _ _) (hrest.stops rfl)
  have hunmarked : unmarked ('|' :: ' ' :: content.text.toList) = content.text.toList := by
    cases htext : content.text.toList with
    | nil => exact absurd htext content.nonempty
    | cons c text => rfl
  have hbar : Text.isWord '|' = false := by decide
  have hword : run? Text.isWord ('|' :: ' ' :: (content.text.toList ++ rest)) = none := by
    simp [run?, hbar]
  simp [first?, ordered, yieldMark, doctype, interpolatedTag, caseHead, whenArm, defaultArm,
    extendsPath, appendBlock, prependBlock, namedBlock, includePath, mixinHead, mixinCall,
    conditional, conditionOf, eachHead, dropDash, whileHead, keywordLine, assignment, tagName,
    filterName, codeLine, signedCode, idName, className, signed, Form.comment, Text.dropSpaces,
    textLine, afterWholeWord?, afterWord?, hbar, hword, hrun, hunmarked]

theorem conditionOf_test (keyword : String) (code : String → String) (test : Expression)
    {text : List Char}
    (htext : afterWholeWord? keyword text = some (' ' :: (test.text.toList ++ rest))) :
    conditionOf keyword code text = some { lexeme := controlCode (code test.text), rest } := by
  have hline : ∀ c ∈ ' ' :: test.text.toList, c ≠ '\n' := by
    simp only [List.forall_mem_cons]
    exact ⟨by decide, test.ne_newline⟩
  have hsplit : Text.splitLine (' ' :: (test.text.toList ++ rest))
      = (' ' :: test.text.toList, rest) := splitLine_line hline hrest
  simp [conditionOf, htext, hsplit, test.trim_spaced]

theorem first?_test (word : TestWord) (test : Expression) :
    first? (word.text.toList ++ ' ' :: test.text.toList ++ rest)
      = some { lexeme := .code (word.code test.text) false false, rest } := by
  have hspace : Text.isWord ' ' = false := by decide
  cases word with
  | ifTrue =>
      have hword : afterWholeWord? "if" ('i' :: 'f' :: ' ' :: (test.text.toList ++ rest))
          = some (' ' :: (test.text.toList ++ rest)) := by
        simp [afterWholeWord?, afterWord?, atWordEnd, hspace]
      have hif := conditionOf_test hrest "if" (fun test => "if (" ++ test ++ ")") test hword
      simp [first?, ordered, yieldMark, doctype, interpolatedTag, caseHead, whenArm, defaultArm,
        extendsPath, appendBlock, prependBlock, namedBlock, includePath, mixinHead, mixinCall,
        conditional, keywordLine, afterWholeWord?, afterWord?, TestWord.text, TestWord.code, hif,
        controlCode]
  | ifFalse =>
      have hword : afterWholeWord? "unless"
          ('u' :: 'n' :: 'l' :: 'e' :: 's' :: 's' :: ' ' :: (test.text.toList ++ rest))
          = some (' ' :: (test.text.toList ++ rest)) := by
        simp [afterWholeWord?, afterWord?, atWordEnd, hspace]
      have hunless := conditionOf_test hrest "unless" (fun test => "if (!(" ++ test ++ "))") test
        hword
      have hif : conditionOf "if" (fun test => "if (" ++ test ++ ")")
          ('u' :: 'n' :: 'l' :: 'e' :: 's' :: 's' :: ' ' :: (test.text.toList ++ rest))
          = none := rfl
      simp [first?, ordered, yieldMark, doctype, interpolatedTag, caseHead,
        whenArm, defaultArm, extendsPath, appendBlock, prependBlock, namedBlock, includePath,
        mixinHead, mixinCall, conditional, keywordLine, afterWholeWord?, afterWord?,
        TestWord.text, TestWord.code, hif, hunless, controlCode]
  | whileTrue =>
      have hline : spacedLine? (' ' :: (test.text.toList ++ rest))
          = some (test.text.toList, rest) :=
        spacedRun?_line (Nat.le_refl 1) test.inLine test.nonempty test.head_ne_space hrest rfl
      simp [first?, ordered, yieldMark, doctype, interpolatedTag, caseHead, whenArm, defaultArm,
        extendsPath, appendBlock, prependBlock, namedBlock, includePath, mixinHead, mixinCall,
        conditional, conditionOf, eachHead, dropDash, whileHead, keywordLine, afterWholeWord?,
        afterWord?, TestWord.text, TestWord.code, hline, controlCode]

theorem first?_each (loop : Loop) :
    first? ("each ".toList ++ Head.variables loop ++ " in ".toList ++ loop.source.text.toList
      ++ rest)
      = some { lexeme := .each loop.item.text (Head.keyName loop) loop.source.text, rest } := by
  have hsource : loopSource? (' ' :: 'i' :: 'n' :: ' ' :: (loop.source.text.toList ++ rest))
      = some (loop.source.text.toList, rest) := by
    have hrun : spacedRun? 0 inLine (' ' :: (loop.source.text.toList ++ rest))
        = some (loop.source.text.toList, rest) :=
      spacedRun?_line (Nat.zero_le 1) loop.source.inLine loop.source.nonempty
        loop.source.head_ne_space hrest rfl
    simp [loopSource?, Text.dropSpaces, afterWord?, hrun]
  obtain ⟨after, hitem, hkey⟩ :=
    run?_variables loop ('n' :: ' ' :: (loop.source.text.toList ++ rest))
  have hspaces : Text.dropSpaces (' ' :: (Head.variables loop
      ++ ' ' :: 'i' :: 'n' :: ' ' :: (loop.source.text.toList ++ rest)))
      = Head.variables loop
        ++ ' ' :: 'i' :: 'n' :: ' ' :: (loop.source.text.toList ++ rest) := by
    simp only [Head.variables, List.append_assoc, loop.item.dropSpaces]
  simp [first?, ordered, yieldMark, doctype, interpolatedTag, caseHead, whenArm, defaultArm,
    extendsPath, appendBlock, prependBlock, namedBlock, includePath, mixinHead, mixinCall,
    conditional, conditionOf, eachHead, dropDash, keywordLine, afterWholeWord?, afterWord?,
    hspaces, hitem, hkey, hsource]

theorem first?_otherwise :
    first? ("else".toList ++ rest) = some { lexeme := .code "else" false false, rest } := by
  have hend : atWordEnd rest = true := atWordEnd_endsLine hrest
  have hempty : ∀ c ∈ ([] : List Char), c ≠ '\n' := fun _ h => absurd h List.not_mem_nil
  have hsplit : Text.splitLine rest = ([], rest) := splitLine_line hempty hrest
  have hspaced : afterWord? [' ', 'i', 'f'] rest = none := by
    cases rest with
    | nil => rfl
    | cons c rest =>
        obtain rfl : c = '\n' := hrest c rfl
        rfl
  simp [first?, ordered, yieldMark, doctype, interpolatedTag, caseHead, whenArm, defaultArm,
    extendsPath, appendBlock, prependBlock, namedBlock, includePath, mixinHead, mixinCall,
    conditional, conditionOf, keywordLine, afterWholeWord?, afterWord?, Option.filter_some, hend,
    hsplit, hspaced, controlCode]

theorem first?_case (subject : Expression) :
    first? ("case ".toList ++ subject.text.toList ++ rest)
      = some { lexeme := .bare .case subject.text, rest } := by
  have hline : spacedLine? (' ' :: (subject.text.toList ++ rest))
      = some (subject.text.toList, rest) :=
    spacedRun?_line (Nat.le_refl 1) subject.inLine subject.nonempty subject.head_ne_space hrest
      rfl
  simp [first?, ordered, yieldMark, doctype, interpolatedTag, caseHead, keywordLine,
    afterWholeWord?, afterWord?, hline]

theorem first?_when (value : ArmExpression) :
    first? ("when ".toList ++ value.text.toList ++ rest)
      = some { lexeme := .bare .when value.text, rest } := by
  have hline : ∀ c ∈ value.text.toList, inWhen c = true := fun c hc => by
    have hcolon : c ≠ ':' := fun h => value.uncolonned (h ▸ hc)
    simp [inWhen, value.inLine c hc, hcolon]
  have hrun : spacedRun? 1 inWhen (' ' :: (value.text.toList ++ rest))
      = some (value.text.toList, rest) :=
    spacedRun?_line (Nat.le_refl 1) hline value.nonempty value.head_ne_space hrest rfl
  have hcolon : optionalColon rest = (false, rest) := optionalColon_endsLine hrest
  simp [first?, ordered, yieldMark, doctype, interpolatedTag, caseHead, whenArm, keywordLine,
    afterWholeWord?, afterWord?, hrun, hcolon, value.trimEnd]

theorem first?_default :
    first? ("default".toList ++ rest) = some { lexeme := .bare .default "", rest } := by
  have hend : atWordEnd rest = true := atWordEnd_endsLine hrest
  have hspaces : Text.dropSpaces rest = rest := dropWhile_stops (hrest.stops rfl)
  have hcolon : optionalColon rest = (false, rest) := optionalColon_endsLine hrest
  simp [first?, ordered, yieldMark, doctype, interpolatedTag, caseHead, whenArm, defaultArm,
    keywordLine, afterWholeWord?, afterWord?, Option.filter_some, hend, hspaces, hcolon]

theorem first?_comment (note : Note) :
    first? ("//".toList ++ note.text.toList ++ rest)
      = some { lexeme := .comment note.text true, rest } := by
  have hslash : Text.isWord '/' = false := by decide
  have hword : run? Text.isWord ('/' :: '/' :: (note.text.toList ++ rest)) = none := by
    simp [run?, hslash]
  have hsplit : Text.splitLine (note.text.toList ++ rest) = (note.text.toList, rest) :=
    splitLine_line note.ne_newline hrest
  have hdash : (note.text.toList ++ rest).head? ≠ some '-' := by
    cases htext : note.text.toList with
    | nil => exact fun h => absurd (hrest '-' h) (by decide)
    | cons c text => exact fun h => note.unmarked (by rw [htext]; exact h)
  have hmatch : Form.comment ('/' :: '/' :: (note.text.toList ++ rest))
      = some { lexeme := .comment note.text true, rest } := by
    have hafter : afterWord? "//".toList
        (Text.dropSpaces ('/' :: '/' :: (note.text.toList ++ rest)))
        = some (note.text.toList ++ rest) := afterWord?_eq_some_iff.mpr rfl
    simp only [Form.comment, hafter, Option.bind_eq_bind, Option.bind_some, Option.pure_def]
    split
    · next hidden hhidden => exact absurd (by rw [hhidden]; rfl) hdash
    · simp only [hsplit, String.ofList_toList]
  simp [first?, ordered, yieldMark, doctype, interpolatedTag, caseHead,
    whenArm, defaultArm, extendsPath, appendBlock, prependBlock, namedBlock, includePath,
    mixinHead, mixinCall, conditional, conditionOf, eachHead, dropDash, whileHead, keywordLine,
    assignment, tagName, filterName, codeLine, signedCode, idName, className, signed,
    afterWholeWord?, afterWord?, hslash, hword, hmatch]

/-- **Every line is read as what it says**, whatever lines come after it. -/
theorem first?_print (head : Head) :
    first? (head.print ++ rest) = some { lexeme := head.lexeme, rest } := by
  cases head with
  | tag name => exact first?_tag hrest name
  | text content => exact first?_text hrest content
  | code word test => exact first?_test hrest word test
  | each loop => exact first?_each hrest loop
  | otherwise => exact first?_otherwise hrest
  | case subject => exact first?_case hrest subject
  | when value => exact first?_when hrest value
  | default => exact first?_default hrest
  | comment note => exact first?_comment hrest note

end Outline

end Stencil
