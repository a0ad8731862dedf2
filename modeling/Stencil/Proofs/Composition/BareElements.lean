import Stencil.Proofs.Composition.BlankLines
import Stencil.Proofs.Grammar.BareElements

/-! # Bare elements — a shorthand without a name is one of a `div`

    Where a statement starts with a shorthand for an identifier or a class, the
    name `div` may be put in front of it: the composition has the same outcome,
    to the last line number and record (`bareShorthand_div`).  The statement may
    start at the front of a line, or behind a colon (`Approach`).

    That a statement starts at the place cannot be told from the line alone, as
    it may be one of text.  So a probe reads the template up to the place
    (`Starts`).  If reading it stops in front of the place, nothing depends on
    what stands there (`Unread`). -/

namespace Stencil

open Lexer Parse

/-- A statement of a source starts at the place: a reader that gives up where one starts with the
    shorthand does so. -/
def BareShorthand.Starts (place : BareShorthand) (config : Config) (source : Source) : Prop :=
  match documentUpTo place (Template.first config source (config.chainBound - 1))
      (.first config source.text) with
  | .error fault after => fault.cause = .exhausted ∧ Opens place after.lexer
  | .ok _ _ => False

/-- The source is not read up to the place, for a fault in front of it. -/
def BareShorthand.Unread (place : BareShorthand) (config : Config) (source : Source) : Prop :=
  match document (Template.first config source (config.chainBound - 1))
      (.first config source.text) with
  | .error _ after => place.text <:+ after.lexer.input
  | .ok _ _ => False

instance (place : BareShorthand) (config : Config) (source : Source) :
    Decidable (place.Starts config source) :=
  match h : documentUpTo place (Template.first config source (config.chainBound - 1))
      (.first config source.text) with
  | .error fault after =>
      decidable_of_iff (fault.cause = .exhausted ∧ Opens place after.lexer)
        (by rw [BareShorthand.Starts, h])
  | .ok _ _ => .isFalse (by rw [BareShorthand.Starts, h]; exact id)

instance (place : BareShorthand) (config : Config) (source : Source) :
    Decidable (place.Unread config source) :=
  match h : document (Template.first config source (config.chainBound - 1))
      (.first config source.text) with
  | .error _ after =>
      decidable_of_iff (place.text <:+ after.lexer.input) (by rw [BareShorthand.Unread, h])
  | .ok _ _ => .isFalse (by rw [BareShorthand.Unread, h]; exact id)

/-- What a source has to show of the run of its document. -/
def readOff : EStateM.Result Fault Progress (List Draft) →
    EStateM.Result Fault Assembly (List Draft × Option Layout)
  | .ok nodes after => .ok (nodes, after.layout) after.assembly
  | .error fault after => .error fault after.assembly

section Bare

variable {config : Config} {compose : Composer} {source : Source} {before : List Char}
  {place : BareShorthand} {text wider : String} {filename : Option String} {fuel : Nat}

theorem readStatements_eq_readOff (assembly : Assembly) :
    readStatements config compose source assembly
      = readOff (document (source.template config compose assembly.templates)
        (source.begin config assembly)) := by
  unfold readStatements readOff
  rfl

/-- Where runs meet, the same can be seen of both, unless the place was taken into something
    else. -/
theorem readOff_of_meeting
    {probe other bare full : EStateM.Result Fault Progress (List Draft)}
    (h : Meeting place probe other bare full) :
    Starved other ∨ readOff full = readOff bare ∨ (probe = bare ∧ Leaves place bare) := by
  cases h with
  | agrees same => exact same.imp_right fun hsame => .inl (congrArg readOff hsame)
  | inStep probe_eq bare_eq full_eq beside =>
      rw [full_eq, bare_eq]
      exact .inr (.inl rfl)
  | stopped bare_eq full_eq =>
      rw [full_eq, bare_eq]
      exact .inr (.inl rfl)
  | past probe_eq leaves => exact .inr (.inr ⟨probe_eq, leaves⟩)

/-- The source is read up to the place, where a statement starts, or not as far. -/
theorem not_leaves (hfuel : config.chainBound = fuel + 1)
    (hplace : place.Starts config source ∨ place.Unread config source) :
    ¬ (documentUpTo place (Template.first config source fuel) (.first config source.text)
        = document (Template.first config source fuel) (.first config source.text)
      ∧ Leaves place
        (document (Template.first config source fuel) (.first config source.text))) := by
  rintro ⟨hprobe, hleaves⟩
  have hbound : config.chainBound - 1 = fuel := by omega
  rcases hplace with hstarts | hunread
  · unfold BareShorthand.Starts at hstarts
    rw [hbound, hprobe] at hstarts
    split at hstarts
    · next fault after hrun =>
        rw [hrun] at hleaves
        cases hleaves with
        | error suffix opens => exact opens hstarts.1 hstarts.2
    · exact hstarts
  · unfold BareShorthand.Unread at hunread
    rw [hbound] at hunread
    split at hunread
    · next fault after hrun =>
        rw [hrun] at hleaves
        cases hleaves with
        | error suffix opens =>
            have hlength := (hunread.trans suffix).length_le
            rw [BareShorthand.text, List.length_cons] at hlength
            omega
    · exact hunread

/-- The other way to compose has enough fuel. -/
theorem not_starved : ¬ Starved (document
    ((Template.first config source fuel).composing (settled (composeWith config fuel)))
    (.first config source.text)) := by
  rintro ⟨fault, after, hrun, hcause⟩
  have hread : readStatements config (settled (composeWith config fuel)) source {}
      = .error fault after.assembly := readStatements_of_fault hrun
  refine readStatements_ne_exhausted (fun child assembly after found hfound hexhausted => ?_) hread
    hcause
  rw [settled_eq_error hfound] at hexhausted
  cases hexhausted

/-- The statements of a text with the name of the element. -/
theorem readStatements_bare (hfuel : config.chainBound = fuel + 1)
    (htext : Text.normalizeNewlines text.toList = before ++ place.text)
    (hwider : Text.normalizeNewlines wider.toList = before ++ place.full)
    (happroach : Approach before)
    (hplace : place.Starts config ⟨text, filename, []⟩
      ∨ place.Unread config ⟨text, filename, []⟩) :
    readStatements config (composeWith config fuel) ⟨wider, filename, []⟩ {}
      = readStatements config (composeWith config fuel) ⟨text, filename, []⟩ {} := by
  let template := Template.first config ⟨text, filename, []⟩ fuel
  let composer := settled template.compose
  have hmends : Mends composer template.compose := fun _ _ _ _ => settled_of_ok
  have hbare : (Progress.first config text).lexer
      = Lexer.withTail { input := before, colons := config.colons } place.text := by
    simp only [Progress.first, Lexer.ofSource, htext]
    rfl
  have hfull : (Progress.first config wider).lexer
      = Lexer.withTail { input := before, colons := config.colons } place.full := by
    simp only [Progress.first, Lexer.ofSource, hwider]
    rfl
  have hbeside : Beside place (Progress.first config text).lexer
      (Progress.first config wider).lexer := by
    rw [hbare, hfull]
    exact .ahead _ happroach fun _ hmem => absurd hmem List.not_mem_nil
  have hmeets : Meets place (documentIn place template composer) := meets_document hmends
  have hmeeting := hmeets.beside hbeside
  rw [readStatements_eq_readOff, readStatements_eq_readOff]
  rcases readOff_of_meeting hmeeting with hstarved | hsame | hpast
  · exact absurd hstarved not_starved
  · exact hsame
  · exact absurd hpast (not_leaves hfuel hplace)

/-- **A bare shorthand is one of a `div`.**  Where a statement starts with `#name` or `.name`, at
    the front of a line or behind a colon, `div` in front of it leaves the outcome of the
    composition as it is: the document with its line numbers, or the fault, and what was told. -/
theorem bareShorthand_div (config : Config) (before : List Char) (place : BareShorthand)
    (text wider : String) (filename : Option String)
    (htext : Text.normalizeNewlines text.toList = before ++ place.text)
    (hwider : Text.normalizeNewlines wider.toList = before ++ place.full)
    (happroach : Approach before)
    (hplace : place.Starts config ⟨text, filename, []⟩
      ∨ place.Unread config ⟨text, filename, []⟩) :
    composeText config wider filename = composeText config text filename := by
  obtain ⟨fuel, hfuel⟩ := config.chainBound_pos
  have hread := readStatements_bare hfuel htext hwider happroach hplace
  have hstep : composeStep config (composeWith config fuel) ⟨wider, filename, []⟩ {}
      = composeStep config (composeWith config fuel) ⟨text, filename, []⟩ {} :=
    bind_of_run_eq hread _
  have hcompose : compose config wider filename {} = compose config text filename {} := by
    rw [compose, compose, hfuel]
    exact hstep
  rw [composeText, composeText, hcompose]

/-- A list whose items start with a shorthand behind a colon. -/
def itemFront : List Char := "ul\n  each v in vs".toList ++ '\n' :: "    li: ".toList

/-- The shorthand of an item, with an attribute list and a body behind it. -/
def itemPlace : BareShorthand where
  sign := '#'
  name := "a-b".toList
  rest := ".c(d='e')\n      | f".toList
  sign_eq := by decide
  name_ne := by decide
  inName := List.all_eq_true.mp (by decide)
  stops := by
    rintro c ⟨rfl⟩
    decide

theorem bareShorthand_div_item :
    (composeText {} (String.ofList (itemFront ++ itemPlace.text)) "views/page.jade").result.isOk
        = true
      ∧ composeText {} (String.ofList (itemFront ++ itemPlace.full)) "views/page.jade"
        = composeText {} (String.ofList (itemFront ++ itemPlace.text)) "views/page.jade" := by
  have happroach : Approach itemFront := by
    have hleads : Leads "    li: ".toList := ⟨by decide, "    li".toList, [], rfl, nofun⟩
    exact .below (.inr hleads)
  refine ⟨by decide +kernel, ?_⟩
  exact bareShorthand_div {} itemFront itemPlace (String.ofList (itemFront ++ itemPlace.text))
    (String.ofList (itemFront ++ itemPlace.full)) (some "views/page.jade") (by decide +kernel)
    (by decide +kernel) happroach (.inl (by decide +kernel))

end Bare

end Stencil
