import Stencil.Proofs.Lexer.Arguments

/-! # Expressions — how much of a line an expression takes

    The form of an assignment ends at a semicolon, and the form of an arm at a
    colon; both take what stands before it for the expression, whatever it is.
    So an assignment and an arm, with a body on its line or without one, have the
    expression that was written exactly when their sign is not in it
    (`expressions_whole_iff`).  A string literal with the sign in it is cut in two,
    and the line goes on in the middle of it (`literals_cut`).

    The name of a variable may start with a keyword.  Then a word character of the
    name comes next (`VariableName.exists_of_afterWord?`), which no keyword wants
    behind it, so no keyword claims an assignment (`VariableName.unclaimed`). -/

namespace Stencil

open Form

/-! ## Names of variables -/

/-- The words that start a statement when a space and an equals sign follow. -/
def statementWords : List String := "when" :: (wholeWords ++ lineWords)

/-- The name of a variable that can be assigned to. -/
structure VariableName extends WordName where
  free : text ∉ statementWords

namespace VariableName

variable (name : VariableName) {keyword : String} {more after : List Char} {p : Char → Bool}

/-- What stands behind a word at the front of an assignment is the space behind the name, or the
    rest of the name. -/
theorem afterWord?_cases (hkeyword : ∀ c ∈ keyword.toList, Text.isWord c = true)
    (h : afterWord? keyword.toList (name.text.toList ++ ' ' :: more) = some after) :
    keyword = name.text ∧ after = ' ' :: more
      ∨ ∃ c rest, after = c :: rest ∧ Text.isWord c = true := by
  have hstops : Stops Text.isWord (' ' :: more) := by
    rintro c ⟨rfl⟩
    decide
  obtain ⟨left, hname, rfl⟩ := afterWord?_stops hkeyword hstops h
  cases left with
  | nil => exact .inl ⟨String.toList_inj.mp (by rw [hname, List.append_nil]), rfl⟩
  | cons c left => exact .inr ⟨c, left ++ ' ' :: more, rfl, name.word c (by simp [hname])⟩

/-- A word that starts a statement is followed by a character of the name. -/
theorem exists_of_afterWord? (hkeyword : keyword ∈ statementWords)
    (h : afterWord? keyword.toList (name.text.toList ++ ' ' :: more) = some after) :
    ∃ c rest, after = c :: rest ∧ Text.isWord c = true := by
  have hwords : ∀ keyword ∈ statementWords, keyword.toList.all Text.isWord = true := by decide
  rcases name.afterWord?_cases (List.all_eq_true.mp (hwords keyword hkeyword)) h with
    ⟨rfl, -⟩ | hrest
  · exact absurd hkeyword name.free
  · exact hrest

theorem afterWholeWord?_eq_none (hkeyword : keyword ∈ statementWords) :
    afterWholeWord? keyword (name.text.toList ++ ' ' :: more) = none := by
  rw [afterWholeWord?, Option.filter_eq_none_iff]
  intro after h
  obtain ⟨c, rest, rfl, hc⟩ := name.exists_of_afterWord? hkeyword h
  simp [atWordEnd, hc]

end VariableName

/-- No spaces are in front of a word character. -/
theorem spacedRun?_word {p : Char → Bool} {c : Char} (hc : Text.isWord c = true)
    (rest : List Char) : spacedRun? 1 p (c :: rest) = none := by
  have hspace : (c == ' ') = false := by
    rw [beq_eq_false_iff_ne]
    rintro rfl
    exact absurd hc (by decide)
  simp [spacedRun?, hspace]

namespace VariableName

variable (name : VariableName) {keyword : String} {more line value after : List Char}

theorem keywordLine_eq_none (hkeyword : keyword ∈ statementWords) (lexeme : String → Lexeme) :
    keywordLine keyword lexeme (name.text.toList ++ ' ' :: more) = none := by
  rw [keywordLine]
  cases h : afterWord? keyword.toList (name.text.toList ++ ' ' :: more) with
  | none => rfl
  | some after =>
      obtain ⟨c, rest, rfl, hc⟩ := name.exists_of_afterWord? hkeyword h
      show (spacedLine? (c :: rest) >>= _) = none
      rw [spacedLine?, spacedRun?_word hc]
      rfl

theorem whenArm_eq_none : whenArm (name.text.toList ++ ' ' :: more) = none := by
  rw [whenArm]
  cases h : afterWord? "when".toList (name.text.toList ++ ' ' :: more) with
  | none => rfl
  | some after =>
      obtain ⟨c, rest, rfl, hc⟩ := name.exists_of_afterWord? (by decide) h
      show (spacedRun? 1 inWhen (c :: rest) >>= _) = none
      rw [spacedRun?_word hc]
      rfl

theorem elseIf_eq_none : afterWholeWord? "else if" (name.text.toList ++ ' ' :: more) = none := by
  rw [afterWholeWord?, Option.filter_eq_none_iff]
  intro after h
  -- the space between the two words would be a character of the name
  have helse : afterWord? "else".toList (name.text.toList ++ ' ' :: more)
      = some (" if".toList ++ after) := by
    rw [afterWord?_eq_some_iff] at h ⊢
    exact h
  obtain ⟨c, rest, hspace, hc⟩ := name.exists_of_afterWord? (by decide) helse
  obtain rfl : ' ' = c := (List.cons.inj hspace).1
  exact absurd hc (by decide)

/-- A definition wants a name behind its word. -/
theorem mixinHead_eq_none : mixinHead (name.text.toList ++ ' ' :: '=' :: more) = none := by
  rw [mixinHead]
  cases h : afterWord? "mixin".toList (name.text.toList ++ ' ' :: '=' :: more) with
  | none => rfl
  | some after =>
      have hnone : spacedRun? 1 Text.isNamePart after = none := by
        rcases name.afterWord?_cases (List.all_eq_true.mp (by decide)) h with
          ⟨-, rfl⟩ | ⟨c, rest, rfl, hc⟩
        · have hequals : Text.isNamePart '=' = false := by decide
          simp [spacedRun?, Text.dropSpaces, run?, hequals]
        · exact spacedRun?_word hc rest
      show (spacedRun? 1 Text.isNamePart after >>= _) = none
      rw [hnone]
      rfl

/-- A loop wants a variable behind its word. -/
theorem eachHead_eq_none : eachHead (name.text.toList ++ ' ' :: '=' :: more) = none := by
  obtain ⟨c, text, htext, hc⟩ := name.exists_cons
  have hdash : dropDash (name.text.toList ++ ' ' :: '=' :: more)
      = name.text.toList ++ ' ' :: '=' :: more := by
    rw [htext, List.cons_append, dropDash]
    intro after he
    obtain rfl : c = '-' := (List.cons.inj he).1
    exact absurd hc (by decide)
  simp only [eachHead, hdash]
  cases h : afterWord? "each".toList (name.text.toList ++ ' ' :: '=' :: more)
      <|> afterWord? "for".toList (name.text.toList ++ ' ' :: '=' :: more) with
  | none => rfl
  | some after =>
      have hafter : after = ' ' :: '=' :: more
          ∨ ∃ c rest, after = c :: rest ∧ Text.isWord c = true := by
        rcases cases_orElse h with hword | hword
        · exact (name.afterWord?_cases (List.all_eq_true.mp (by decide)) hword).imp_left And.right
        · exact (name.afterWord?_cases (List.all_eq_true.mp (by decide)) hword).imp_left And.right
      rcases hafter with rfl | ⟨c, rest, rfl, hc⟩
      · have hequals : Text.isWord '=' = false := by decide
        simp [Text.dropSpaces, run?, hequals]
      · have hspace : c ≠ ' ' := by
          rintro rfl
          exact absurd hc (by decide)
        simp [hspace]

/-- No keyword claims an assignment. -/
theorem unclaimed : Unclaimed (name.text.toList ++ ' ' :: '=' :: more) where
  starts := by
    obtain ⟨c, text, htext, hc⟩ := name.exists_cons
    rw [htext]
    exact hc
  whole _ hkeyword := name.afterWholeWord?_eq_none (by simp [statementWords, hkeyword])
  line _ hkeyword := name.keywordLine_eq_none (by simp [statementWords, hkeyword])
  elseIf := name.elseIf_eq_none
  whenArm := name.whenArm_eq_none
  mixinHead := name.mixinHead_eq_none
  eachHead := name.eachHead_eq_none

/-- **A name, an equals sign and a value are read as an assignment.** -/
theorem first?_assignment (hvalue : spacedRun? 0 inAssigned (' ' :: line) = some (value, after)) :
    first? (name.text.toList ++ ' ' :: '=' :: ' ' :: line)
      = some {
          lexeme := controlCode ("var " ++ name.text ++ " = ("
            ++ String.ofList (Text.trimEnd value) ++ ");")
          rest := dropSemicolon after } := by
  have hstops : Stops Text.isWord (' ' :: '=' :: ' ' :: line) := by
    rintro c ⟨rfl⟩
    decide
  have hname := run?_line name.word name.nonempty hstops
  have hspaces : Text.dropSpaces (' ' :: '=' :: ' ' :: line) = '=' :: ' ' :: line := rfl
  rw [name.unclaimed.first?]
  simp [assignment, hname, hspaces, afterWord?, hvalue]

end VariableName

/-! ## Signs in expressions -/

namespace Expression

variable (expression : Expression) {sign : Char} {front back more : List Char}
  {p : Char → Bool} {least : Nat}

/-- What stands before a sign in an expression is not the expression. -/
theorem exists_cut (h : sign ∈ expression.text.toList) :
    ∃ front back, expression.text.toList = front ++ sign :: back ∧ sign ∉ front
      ∧ String.ofList (Text.trimEnd front) ≠ expression.text := by
  obtain ⟨front, back, htext, hfront⟩ := List.eq_append_cons_of_mem h
  refine ⟨front, back, htext, hfront, fun heq => ?_⟩
  -- trimming adds nothing, and at least the sign is missing
  have hle : (Text.trimEnd front).length ≤ front.length := by
    rw [Text.trimEnd, Text.dropEndWhile, List.length_reverse]
    exact (List.dropWhile_sublist _).length_le.trans_eq (List.length_reverse ..)
  have hlength := congrArg (fun text => text.toList.length) heq
  simp only [String.toList_ofList, htext, List.length_append, List.length_cons] at hlength
  omega

/-- An expression without the sign at which a run ends is in the run as a whole. -/
theorem spacedRun?_whole (hp : ∀ c, p c = true ↔ c ≠ '\n' ∧ c ≠ sign) (hleast : least ≤ 1)
    (h : sign ∉ expression.text.toList) (hmore : Stops p more) :
    spacedRun? least p (' ' :: (expression.text.toList ++ more))
      = some (expression.text.toList, more) := by
  have hline : ∀ c ∈ expression.text.toList, p c = true := fun c hc =>
    (hp c).mpr ⟨expression.ne_newline c hc, fun heq => h (heq ▸ hc)⟩
  exact spacedRun?_stops hleast hline expression.nonempty expression.head_ne_space hmore

/-- The sign at which a run ends cuts an expression. -/
theorem spacedRun?_cut (hp : ∀ c, p c = true ↔ c ≠ '\n' ∧ c ≠ sign) (hleast : least ≤ 1)
    (htext : expression.text.toList = front ++ sign :: back) (hfront : sign ∉ front)
    (hne : front ≠ []) (more : List Char) :
    spacedRun? least p (' ' :: (expression.text.toList ++ more))
      = some (front, sign :: (back ++ more)) := by
  have hline : ∀ c ∈ front, p c = true := fun c hc => by
    have hmem : c ∈ expression.text.toList := by simp [htext, hc]
    exact (hp c).mpr ⟨expression.ne_newline c hmem, fun heq => hfront (heq ▸ hc)⟩
  have hhead : front.head? ≠ some ' ' := by
    intro h
    refine expression.head_ne_space ?_
    rw [htext, List.head?_append, h]
    rfl
  have hstops : Stops p (sign :: (back ++ more)) := by
    rintro c ⟨rfl⟩
    simpa using (hp sign).not
  rw [htext, List.append_assoc]
  exact spacedRun?_stops hleast hline hne hhead hstops

end Expression

theorem inAssigned_iff (c : Char) : inAssigned c = true ↔ c ≠ '\n' ∧ c ≠ ';' := by
  simp [inAssigned, inLine]

theorem inWhen_iff (c : Char) : inWhen c = true ↔ c ≠ '\n' ∧ c ≠ ':' := by
  simp [inWhen, inLine]

/-! ## Arms -/

section Arms

variable {line value after : List Char}

theorem first?_arm (hvalue : spacedRun? 1 inWhen (' ' :: line) = some (value, after)) :
    first? ("when ".toList ++ line)
      = some {
          lexeme := .bare .when (String.ofList (Text.trimEnd value))
          colon := (optionalColon after).1
          rest := (optionalColon after).2 } := by
  simp [first?, ordered, yieldMark, doctype, interpolatedTag, caseHead, whenArm, keywordLine,
    afterWholeWord?, afterWord?, hvalue]

/-- With nothing before the colon, the word is an element of this name. -/
theorem first?_arm_colon (line : List Char) :
    first? ("when ".toList ++ ':' :: line)
      = some { lexeme := .tag "when" false, rest := ' ' :: ':' :: line } := by
  have hstops : ∀ {p : Char → Bool}, p ' ' = false → Stops p (' ' :: ':' :: line) := by
    rintro p hp c ⟨rfl⟩
    exact hp
  have hspaces : Text.dropSpaces (' ' :: ':' :: line) = ':' :: line := rfl
  have hvalue : spacedRun? 1 inWhen (' ' :: ':' :: line) = none := by
    have hcolon : inWhen ':' = false := by decide
    simp [spacedRun?, hspaces, run?, hcolon]
  have hword : ∀ c ∈ "when".toList, Text.isWord c = true := List.all_eq_true.mp (by decide)
  have hname : run? Text.isWord ('w' :: 'h' :: 'e' :: 'n' :: ' ' :: ':' :: line)
      = some ("when".toList, ' ' :: ':' :: line) :=
    run?_line hword (by simp) (hstops (by decide))
  have htag : tagName ('w' :: 'h' :: 'e' :: 'n' :: ' ' :: ':' :: line)
      = some { lexeme := .tag "when" false, rest := ' ' :: ':' :: line } := by
    have hinside : ∀ c ∈ "when".toList, inTagName c = true := fun c hc =>
      inTagName_of_isWord (hword c hc)
    have htake : ('w' :: 'h' :: 'e' :: 'n' :: ' ' :: ':' :: line).takeWhile inTagName
        = "when".toList := takeWhile_line hinside (hstops (by decide))
    have hdrop : ('w' :: 'h' :: 'e' :: 'n' :: ' ' :: ':' :: line).dropWhile inTagName
        = ' ' :: ':' :: line := dropWhile_line hinside (hstops (by decide))
    have hhead : Text.isWord 'w' = true := by decide
    simp [tagName, hhead, htake, hdrop]
  simp [first?, ordered, yieldMark, doctype, interpolatedTag, caseHead, whenArm, defaultArm,
    extendsPath, appendBlock, prependBlock, namedBlock, includePath, mixinHead, mixinCall,
    conditional, conditionOf, eachHead, dropDash, whileHead, keywordLine, afterWholeWord?,
    afterWord?, assignment, hvalue, hname, hspaces, htag]

end Arms

namespace Lexer

variable (name : VariableName) (expression : Expression) (colons : Bool)

theorem ofSource_assignment :
    ofSource (name.text ++ " = " ++ expression.text) colons
      = alone .markup colons (name.text.toList ++ ' ' :: '=' :: ' ' :: expression.text.toList) := by
  have hsource : name.text ++ " = " ++ expression.text
      = String.ofList (name.text.toList ++ ' ' :: '=' :: ' ' :: expression.text.toList) := by
    apply String.toList_inj.mp
    simp
  rw [hsource, ofSource_eq_alone]
  simp [name.return_not_mem, expression.return_not_mem]

theorem ofSource_arm {more : String} (hmore : '\r' ∉ more.toList) :
    ofSource ("when " ++ expression.text ++ more) colons
      = alone .markup colons ("when ".toList ++ (expression.text.toList ++ more.toList)) := by
  have hsource : "when " ++ expression.text ++ more
      = String.ofList ("when ".toList ++ (expression.text.toList ++ more.toList)) := by
    apply String.toList_inj.mp
    simp
  rw [hsource, ofSource_eq_alone]
  simp [hmore, expression.return_not_mem]

theorem lexemes_assignment {value after : List Char}
    (hvalue : spacedRun? 0 inAssigned (' ' :: expression.text.toList) = some (value, after)) :
    (ofSource (name.text ++ " = " ++ expression.text) colons).lexemes
      = (controlCode ("var " ++ name.text ++ " = (" ++ String.ofList (Text.trimEnd value) ++ ");")
          :: (alone .markup colons (dropSemicolon after)).lexemes.1,
        (alone .markup colons (dropSemicolon after)).lexemes.2) := by
  obtain ⟨c, text, htext, hc⟩ := name.exists_cons
  have hfound := name.first?_assignment hvalue
  have hsign : ∀ sign, Text.isWord sign = false → c ≠ sign := by
    rintro sign hsign rfl
    exact absurd (hsign.symm.trans hc) nofun
  rw [ofSource_assignment]
  rw [htext, List.cons_append] at hfound ⊢
  exact lexemes_alone (hsign _ (by decide)) (hsign _ (by decide)) hfound

/-- **An assignment has its expression whole exactly when there is no semicolon in it.** -/
theorem lexemes_assignment_iff :
    (ofSource (name.text ++ " = " ++ expression.text) colons).lexemes
        = ([.code ("var " ++ name.text ++ " = (" ++ expression.text ++ ");") false false,
            .bare .eos ""], none)
      ↔ ';' ∉ expression.text.toList := by
  by_cases hsemicolon : ';' ∈ expression.text.toList
  · refine iff_of_false (fun hlexemes => ?_) (not_not_intro hsemicolon)
    obtain ⟨front, back, htext, hfront, hcut⟩ := expression.exists_cut hsemicolon
    have hvalue : ∃ value after,
        spacedRun? 0 inAssigned (' ' :: expression.text.toList) = some (value, after)
          ∧ Text.trimEnd value = Text.trimEnd front := by
      rcases eq_or_ne front [] with rfl | hne
      · -- the space before the semicolon is the value
        refine ⟨[' '], ';' :: back, ?_, rfl⟩
        rw [htext]
        rfl
      · have hvalue := expression.spacedRun?_cut inAssigned_iff (Nat.zero_le 1) htext hfront hne []
        rw [List.append_nil] at hvalue
        exact ⟨front, _, hvalue, rfl⟩
    obtain ⟨value, after, hvalue, htrim⟩ := hvalue
    rw [lexemes_assignment name expression colons hvalue, htrim] at hlexemes
    injection (List.cons.inj (congrArg Prod.fst hlexemes)).1 with hcode
    refine hcut (String.toList_inj.mp ?_)
    simpa using congrArg String.toList hcode
  · have hstops : Stops inAssigned [] := fun _ h => nomatch h
    have hvalue := expression.spacedRun?_whole inAssigned_iff (Nat.zero_le 1) hsemicolon hstops
    rw [List.append_nil] at hvalue
    rw [lexemes_assignment name expression colons hvalue, expression.trimEnd,
      String.ofList_toList]
    exact iff_of_true (by rw [show dropSemicolon [] = [] from rfl, lexemes_alone_nil]; rfl)
      hsemicolon

/-- **An arm has its expression whole exactly when there is no colon in it**, whatever comes behind
    the expression on the line. -/
theorem lexemes_arm_iff (more : String) (hreturn : '\r' ∉ more.toList)
    (hmore : Stops inWhen more.toList) :
    (ofSource ("when " ++ expression.text ++ more) colons).lexemes
        = (.bare .when expression.text
            :: ((if (optionalColon more.toList).1 then [.bare .colon ""] else [])
              ++ (alone .markup colons (optionalColon more.toList).2).lexemes.1),
          (alone .markup colons (optionalColon more.toList).2).lexemes.2)
      ↔ ':' ∉ expression.text.toList := by
  rw [ofSource_arm expression colons hreturn]
  by_cases hcolon : ':' ∈ expression.text.toList
  · refine iff_of_false (fun hlexemes => ?_) (not_not_intro hcolon)
    obtain ⟨front, back, htext, hfront, hcut⟩ := expression.exists_cut hcolon
    rcases eq_or_ne front [] with rfl | hne
    · -- with nothing before the colon the line is no arm at all
      rw [htext, List.nil_append, List.cons_append] at hlexemes
      exact nomatch lexeme_eq_of_lexemes_alone (by decide) (by decide)
        (first?_arm_colon (back ++ more.toList)) hlexemes
    · have hvalue := expression.spacedRun?_cut inWhen_iff le_rfl htext hfront hne more.toList
      injection lexeme_eq_of_lexemes_alone (by decide) (by decide) (first?_arm hvalue) hlexemes
        with _ hvalue
      exact hcut hvalue
  · have hvalue := expression.spacedRun?_whole inWhen_iff le_rfl hcolon hmore
    have hfound := first?_arm hvalue
    rw [expression.trimEnd, String.ofList_toList] at hfound
    exact iff_of_true (lexemes_alone (by decide) (by decide) hfound) hcolon

/-- **Assignments and arms have their expressions whole exactly when their sign is not in them**:
    a semicolon for an assignment, and a colon for an arm, with a body behind it or without one. -/
theorem expressions_whole_iff :
    ((ofSource (name.text ++ " = " ++ expression.text) colons).lexemes
        = ([.code ("var " ++ name.text ++ " = (" ++ expression.text ++ ");") false false,
            .bare .eos ""], none)
      ↔ ';' ∉ expression.text.toList)
    ∧ ((ofSource ("when " ++ expression.text) colons).lexemes
        = ([.bare .when expression.text, .bare .eos ""], none)
      ↔ ':' ∉ expression.text.toList)
    ∧ ((ofSource ("when " ++ expression.text ++ ": p") colons).lexemes
        = ([.bare .when expression.text, .bare .colon "", .tag "p" false, .bare .eos ""], none)
      ↔ ':' ∉ expression.text.toList) := by
  refine ⟨lexemes_assignment_iff name expression colons, ?_, ?_⟩
  · have harm := lexemes_arm_iff expression colons "" (by decide) nofun
    rw [String.append_empty] at harm
    rw [← harm, show (optionalColon "".toList) = (false, []) from rfl, lexemes_alone_nil]
    rfl
  · have hstops : Stops inWhen ": p".toList := by
      rintro c ⟨rfl⟩
      decide
    have hbody : (alone .markup colons "p".toList).lexemes
        = ([.tag "p" false, .bare .eos ""], none) :=
      lexemes_whole (by decide) (by decide) (by decide)
    rw [← lexemes_arm_iff expression colons ": p" (by decide) hstops,
      show (optionalColon ": p".toList) = (true, "p".toList) from rfl, hbody]
    rfl

/-- The variable `x`. -/
def variableX : VariableName where
  text := "x"
  nonempty := by decide
  word := List.all_eq_true.mp (by decide)
  free := by decide

/-- The literal `"a;b"`. -/
def semicolonLiteral : Expression where
  text := "\"a;b\""
  oneLine := by simp
  nonempty := by decide
  trimmed := by decide

/-- The literal `"a:b"`. -/
def colonLiteral : Expression where
  text := "\"a:b\""
  oneLine := by simp
  nonempty := by decide
  trimmed := by decide

/-- **A literal with the sign in it is cut in two**, and what stands behind the sign is read as an
    element and a text. -/
theorem literals_cut :
    (ofSource (variableX.text ++ " = " ++ semicolonLiteral.text)).lexemes
        = ([.code "var x = (\"a);" false false, .tag "b" false, .bare .text "\"",
            .bare .eos ""], none)
      ∧ (ofSource (variableX.text ++ " = " ++ semicolonLiteral.text)).lexemes
        ≠ ([.code "var x = (\"a;b\");" false false, .bare .eos ""], none)
      ∧ (ofSource ("when " ++ colonLiteral.text)).lexemes
        = ([.bare .when "\"a", .bare .colon "", .tag "b" false, .bare .text "\"",
            .bare .eos ""], none)
      ∧ (ofSource ("when " ++ colonLiteral.text)).lexemes
        ≠ ([.bare .when "\"a:b\"", .bare .eos ""], none) := by
  decide +kernel

end Lexer

end Stencil
