import Stencil.Proofs.Lexer.ListEnd
import Stencil.Proofs.Lexer.LineByLine
import Stencil.Proofs.Outline.Heads

/-! # Arguments — how much of a line a mixin call takes

    The parameters of a mixin definition run to the last closing parenthesis of
    the line, but the arguments of a call to the first one.  So a line with a
    text in the parentheses is always read as one definition with the text as its
    parameters; it is read as one call with the text as its arguments exactly when
    no closing parenthesis is in the text, and it does not start like an attribute
    (`arguments_whole_iff`).  A call in the arguments of a call cuts them
    (`nestedCall_cut`). -/

namespace Stencil

open Form

/-! ## Lines alone -/

namespace Lexer

variable {colons : Bool} {c : Char} {text : List Char} {found : Match}

theorem lexemes_alone_nil (colons : Bool) :
    (alone .markup colons []).lexemes = ([.bare .eos ""], none) :=
  lexemes_of_finished (untouched_alone ..) ⟨rfl, rfl, rfl⟩

/-- **A text that a form is at the front of** says what the form says, and then what the rest of
    the text says alone. -/
theorem lexemes_alone (hc : c ≠ '\n') (hparenthesis : c ≠ '(')
    (hfound : first? (c :: text) = some found) :
    (alone .markup colons (c :: text)).lexemes
      = (found.lexeme :: ((if found.colon then [.bare .colon ""] else [])
          ++ (alone .markup colons found.rest).lexemes.1),
        (alone .markup colons found.rest).lexemes.2) := by
  have huntouched := untouched_alone .markup colons (c :: text)
  have hnext : (alone .markup colons (c :: text)).next = _ :=
    next_match rfl rfl rfl hc hparenthesis hfound
  have hbehind := huntouched.next hnext
  rw [lexemes_of_next huntouched hnext (ne_eos_of_content (first?_kind hfound))]
  cases hcolon : found.colon with
  | false =>
      rw [hcolon] at hbehind
      rfl
  | true =>
      rw [hcolon, if_pos rfl] at hbehind
      have hwaiting : ({ alone .markup colons found.rest with
          pending := [.bare .colon 1] } : Lexer).next
            = (.ok (.bare .colon 1), alone .markup colons found.rest) := rfl
      rw [if_pos rfl, if_pos rfl, lexemes_of_next hbehind hwaiting (by decide)]
      rfl

theorem lexeme_eq_of_lexemes_alone {lexeme : Lexeme} {said : List Lexeme}
    {fault : Option LexicalFault} (hc : c ≠ '\n') (hparenthesis : c ≠ '(')
    (hfound : first? (c :: text) = some found)
    (hlexemes : (alone .markup colons (c :: text)).lexemes = (lexeme :: said, fault)) :
    found.lexeme = lexeme := by
  rw [lexemes_alone hc hparenthesis hfound] at hlexemes
  exact (List.cons.inj (congrArg Prod.fst hlexemes)).1

end Lexer

/-! ## Mixin names -/

/-- The name of a mixin. -/
structure MixinName where
  text : String
  nonempty : text.toList ≠ []
  parts : ∀ c ∈ text.toList, Text.isNamePart c = true

namespace MixinName

variable (name : MixinName) {inside args rest : List Char}

theorem return_not_mem : '\r' ∉ name.text.toList := fun h =>
  absurd (name.parts '\r' h) (by decide)

theorem stops (inside : List Char) : Stops Text.isNamePart ('(' :: inside) := by
  rintro c ⟨rfl⟩
  decide

/-- What a definition with parameters is read as. -/
theorem first?_definition (hargs : uptoLastParen? inside = some (args, rest)) :
    first? ("mixin ".toList ++ name.text.toList ++ '(' :: inside)
      = some { lexeme := .mixin name.text (some (String.ofList args)), rest } := by
  have hhead : name.text.toList.head? ≠ some ' ' := fun h =>
    absurd (name.parts ' ' (List.mem_of_mem_head? h)) (by decide)
  have hname : spacedRun? 1 Text.isNamePart (' ' :: (name.text.toList ++ '(' :: inside))
      = some (name.text.toList, '(' :: inside) :=
    spacedRun?_stops le_rfl name.parts name.nonempty hhead (stops inside)
  have hspaces : Text.dropSpaces ('(' :: inside) = '(' :: inside := rfl
  simp [first?, ordered, yieldMark, doctype, interpolatedTag, caseHead, whenArm, defaultArm,
    extendsPath, appendBlock, prependBlock, namedBlock, includePath, mixinHead, keywordLine,
    afterWholeWord?, afterWord?, hname, hspaces, hargs]

/-- What a call with arguments is read as. -/
theorem first?_call (hargs : uptoFirstParen? inside = some (args, rest)) :
    first? ('+' :: (name.text.toList ++ '(' :: inside))
      = some (if attributeLike args then
            { lexeme := .call name.text none, rest := '(' :: inside }
          else { lexeme := .call name.text (some (String.ofList args)), rest }) := by
  have hname : run? Text.isNamePart (name.text.toList ++ '(' :: inside)
      = some (name.text.toList, '(' :: inside) :=
    run?_line name.parts name.nonempty (stops inside)
  have hspaces : Text.dropSpaces ('(' :: inside) = '(' :: inside := rfl
  have hcall : mixinCall ('+' :: (name.text.toList ++ '(' :: inside))
      = some (if attributeLike args then
            { lexeme := .call name.text none, rest := '(' :: inside }
          else { lexeme := .call name.text (some (String.ofList args)), rest }) := by
    cases hlike : attributeLike args <;>
      simp [mixinCall, afterWord?, hname, hspaces, hargs, hlike]
  simp [first?, ordered, yieldMark, doctype, interpolatedTag, caseHead, whenArm, defaultArm,
    extendsPath, appendBlock, prependBlock, namedBlock, includePath, mixinHead,
    keywordLine, afterWholeWord?, afterWord?, hcall]

/-- A call, as a source. -/
def call (name : MixinName) (args : OneLine) : String := "+" ++ name.text ++ "(" ++ args.text ++ ")"

/-- A definition, as a source. -/
def definition (name : MixinName) (params : OneLine) : String :=
  "mixin " ++ name.text ++ "(" ++ params.text ++ ")"

end MixinName

/-! ## What stands in parentheses -/

namespace Form

variable {text rest : List Char}

theorem uptoFirstParen?_eq (hline : ∀ c ∈ text, c ≠ '\n') (hopen : ')' ∉ text) :
    uptoFirstParen? (text ++ ')' :: rest) = some (text, rest) := by
  have htext : ∀ c ∈ text, (inLine c && c != ')') = true := fun c hc => by
    have hne : c ≠ ')' := fun h => hopen (h ▸ hc)
    simp [inLine, hline c hc, hne]
  have hstops : Stops (fun c => inLine c && c != ')') (')' :: rest) := by
    rintro c ⟨rfl⟩
    decide
  simp only [uptoFirstParen?, takeWhile_line htext hstops, dropWhile_line htext hstops]

/-- A parenthesis in the text ends it, and is not part of what comes before. -/
theorem exists_uptoFirstParen? (hline : ∀ c ∈ text, c ≠ '\n') (hclosed : ')' ∈ text) :
    ∃ front back, front ≠ text ∧ uptoFirstParen? (text ++ [')']) = some (front, back) := by
  obtain ⟨front, back, rfl, hfront⟩ := List.eq_append_cons_of_mem hclosed
  refine ⟨front, back ++ [')'], fun h => ?_, ?_⟩
  · exact List.cons_ne_nil _ _ (List.self_eq_append_right.mp h)
  · rw [List.append_assoc, List.cons_append]
    exact uptoFirstParen?_eq (fun c hc => hline c (List.mem_append_left _ hc)) hfront

theorem uptoLastParen?_eq (hline : ∀ c ∈ text, c ≠ '\n')
    (hlast : ')' ∉ rest.takeWhile (· != '\n')) :
    uptoLastParen? (text ++ ')' :: rest) = some (text, rest) := by
  have hcons : text ++ ')' :: rest = text ++ [')'] ++ rest := by simp
  have hall : ∀ c ∈ text ++ [')'], (c != '\n') = true := by
    simp only [List.forall_mem_append, List.forall_mem_singleton]
    exact ⟨fun c hc => bne_iff_ne.mpr (hline c hc), by decide⟩
  have hopen : ∀ c ∈ (rest.takeWhile (· != '\n')).reverse, (c != ')') = true := fun c hc =>
    bne_iff_ne.mpr fun heq => hlast (heq ▸ List.mem_reverse.mp hc)
  unfold uptoLastParen? Text.splitLine
  rw [hcons, List.takeWhile_append_of_pos hall, List.dropWhile_append_of_pos hall]
  dsimp only
  rw [List.reverse_append, List.dropWhile_append_of_pos hopen, List.reverse_append]
  simp [List.drop_append]

end Form

namespace Lexer

variable (name : MixinName) (args : OneLine) (colons : Bool)

/-- A line that a form takes to the end is said as the form says it. -/
theorem lexemes_whole {colons : Bool} {c : Char} {text : List Char} {lexeme : Lexeme}
    (hc : c ≠ '\n') (hparenthesis : c ≠ '(')
    (hfound : first? (c :: text) = some { lexeme, rest := [] }) :
    (alone .markup colons (c :: text)).lexemes = ([lexeme, .bare .eos ""], none) := by
  rw [lexemes_alone hc hparenthesis hfound, lexemes_alone_nil]
  rfl

theorem ofSource_call : ofSource (name.call args) colons
    = alone .markup colons ('+' :: (name.text.toList ++ '(' :: (args.text.toList ++ [')']))) := by
  have hsource : name.call args
      = String.ofList ('+' :: (name.text.toList ++ '(' :: (args.text.toList ++ [')']))) := by
    apply String.toList_inj.mp
    simp [MixinName.call]
  rw [hsource, ofSource_eq_alone]
  simp [name.return_not_mem, args.return_not_mem]

theorem lexemes_definition : (ofSource (name.definition args) colons).lexemes
    = ([.mixin name.text (some args.text), .bare .eos ""], none) := by
  have hsource : name.definition args = String.ofList
      ("mixin ".toList ++ name.text.toList ++ '(' :: (args.text.toList ++ [')'])) := by
    apply String.toList_inj.mp
    simp [MixinName.definition]
  have hargs : uptoLastParen? (args.text.toList ++ [')']) = some (args.text.toList, []) :=
    uptoLastParen?_eq args.ne_newline List.not_mem_nil
  have hfound := name.first?_definition hargs
  rw [String.ofList_toList] at hfound
  rw [hsource, ofSource_eq_alone]
  · exact lexemes_whole (by decide) (by decide) hfound
  · simp [name.return_not_mem, args.return_not_mem]

/-- **A definition takes what stands in its parentheses whole, and a call exactly when there is no
    closing parenthesis in it** and it does not start like an attribute. -/
theorem arguments_whole_iff :
    ((ofSource (name.call args) colons).lexemes
        = ([.call name.text (some args.text), .bare .eos ""], none)
      ↔ ')' ∉ args.text.toList ∧ attributeLike args.text.toList = false)
    ∧ (ofSource (name.definition args) colons).lexemes
        = ([.mixin name.text (some args.text), .bare .eos ""], none) := by
  refine ⟨?_, lexemes_definition name args colons⟩
  rw [ofSource_call]
  by_cases hclosed : ')' ∈ args.text.toList
  · -- the call ends at the parenthesis, whatever its arguments are taken for
    refine iff_of_false (fun hlexemes => ?_) (fun h => h.1 hclosed)
    obtain ⟨front, back, hne, hfront⟩ := exists_uptoFirstParen? args.ne_newline hclosed
    have hlexeme := lexeme_eq_of_lexemes_alone (by decide) (by decide) (name.first?_call hfront)
      hlexemes
    split at hlexeme
    · exact nomatch hlexeme
    · injection hlexeme with _ hargs
      exact hne (by rw [← Option.some.inj hargs, String.toList_ofList])
  · have hargs : uptoFirstParen? (args.text.toList ++ [')']) = some (args.text.toList, []) :=
      uptoFirstParen?_eq args.ne_newline hclosed
    have hfound := name.first?_call hargs
    rw [String.ofList_toList] at hfound
    rw [and_iff_right hclosed]
    cases hlike : attributeLike args.text.toList with
    | false =>
        rw [hlike] at hfound
        exact iff_of_true (lexemes_whole (by decide) (by decide) hfound) rfl
    | true =>
        refine iff_of_false (fun hlexemes => ?_) nofun
        rw [hlike] at hfound
        exact nomatch lexeme_eq_of_lexemes_alone (by decide) (by decide) hfound hlexemes

/-- The name `m`. -/
def mixinM : MixinName where
  text := "m"
  nonempty := by decide
  parts := List.all_eq_true.mp (by decide)

/-- The call `f(x)`. -/
def innerCall : OneLine where
  text := "f(x)"
  oneLine := by simp

/-- **A call in the arguments of a call cuts them**: the definition with the same text in its
    parentheses has it whole. -/
theorem nestedCall_cut :
    Matched innerCall.text.toList ∧ attributeLike innerCall.text.toList = false
      ∧ (ofSource (mixinM.call innerCall)).lexemes
        = ([.call "m" (some "f(x"), .bare .text ")", .bare .eos ""], none)
      ∧ (ofSource (mixinM.call innerCall)).lexemes
        ≠ ([.call "m" (some "f(x)"), .bare .eos ""], none)
      ∧ (ofSource (mixinM.definition innerCall)).lexemes
        = ([.mixin "m" (some "f(x)"), .bare .eos ""], none) := by
  decide +kernel

end Lexer
end Stencil
