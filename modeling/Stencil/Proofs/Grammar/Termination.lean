import Stencil.Proofs.Composition.Root
import Stencil.Proofs.Grammar.Bodies
import Stencil.Proofs.Grammar.Nameless

/-! # Termination — reading a template comes to an end

    A template that names no other one is parsed to a block, or refused for a
    cause that lies in its text: no loop runs out of fuel.  That holds of it
    without a file name because every reader ends (`document_ends`), and under
    every file name because it is read in the same way there
    (`agrees_document`).  And in no state that a session with its lexer leads to
    does a body reach over the end of the stream.

    Whether a template names another one is settled by its statements.  A text
    whose stream has no token of that kind, however its lexer is called, has no
    such statement (`standalone_of_not_mentions`); one that has it in a raw body
    alone need not have one either (`scriptText`). -/

namespace Stencil

open Lexer Parse

variable {config : Config} {text : String} {filename : Option String}

/-- A template that names no other one.  Without a file name, a template is refused as soon as it
    does, so such a template is refused for other causes, or not at all. -/
def Standalone (config : Config) (text : String) : Prop :=
  ∀ fault, parseText config text none = .error fault → ¬ fault.cause.Unnamed

theorem Cause.OfText.not_unnamed {cause : Cause} (h : cause.OfText) : ¬ cause.Unnamed := by
  rintro (rfl | rfl)
  · exact nomatch h
  · exact nomatch h

/-- Without a file name, a template is read to its end and extends none, or it is refused for a
    cause that lies in its text, or because it names another one, which its text mentions then. -/
theorem document_nameless (config : Config) (text : String) (fuel : Nat) :
    match document (.first config { text } fuel) (.first config text) with
    | .ok _ after => after.layout = none
    | .error fault _ => fault.cause.OfText
        ∨ (ofSource text config.colons).Mentions ∧ fault.cause.Unnamed := by
  have hends := document_ends (.first config { text } fuel) (ofSource text config.colons)
    (.first config text) .start (stands_ofSource text config.colons)
  have hself : Agrees (document (.first config { text } fuel))
      (document (.first config { text } fuel)) _ := agrees_document rfl
  have hagrees := hself (.first config text) (.first config text) rfl rfl
  cases hread : document (.first config { text } fuel) (.first config text) with
  | ok nodes after =>
      rw [hread] at hagrees
      obtain ⟨_, _, ⟨⟩, -, -, -, hlayout⟩ := hagrees
      exact hlayout
  | error fault after =>
      rw [hread] at hends
      cases hends with
      | text cause => exact .inl cause
      | unnamed _ mentioned cause => exact .inr ⟨mentioned, cause⟩
      | naming named => exact absurd rfl named
      | composing named => exact absurd rfl named
      | exhausted short => exact absurd trivial short

/-- A text without a token that names another template is standalone. -/
theorem standalone_of_not_mentions (h : ¬ (ofSource text config.colons).Mentions) :
    Standalone config text := by
  obtain ⟨fuel, hfuel⟩ := config.chainBound_pos
  have hnameless := document_nameless config text fuel
  intro fault hfault
  cases hread : document (.first config { text } fuel) (.first config text) with
  | ok nodes after =>
      rw [hread] at hnameless
      obtain ⟨root, hroot, -⟩ := parseText_of_ok hfuel hread hnameless
      rw [hroot] at hfault
      exact nomatch hfault
  | error fault' after =>
      rw [hread] at hnameless
      rw [parseText_of_fault hfuel hread] at hfault
      cases hfault
      rcases hnameless with htext | hmentions
      · exact htext.not_unnamed
      · exact absurd hmentions.1 h

/-- A template that names no other one is parsed to a block under every file name, or refused for a
    cause that lies in its text. -/
theorem Standalone.parseText (h : Standalone config text) (filename : Option String) :
    (∃ root, parseText config text filename = .ok root ∧ root.isBlock = true)
      ∨ ∃ fault, parseText config text filename = .error fault ∧ fault.cause.OfText := by
  obtain ⟨fuel, hfuel⟩ := config.chainBound_pos
  have hnameless := document_nameless config text fuel
  have hdocument : Agrees (document (.first config { text, filename } fuel))
      (document (.first config { text } fuel)) _ := agrees_document rfl
  have hagrees := hdocument (.first config text) (.first config text) rfl rfl
  cases hread : document (.first config { text } fuel) (.first config text) with
  | ok nodes after =>
      rw [hread] at hagrees
      obtain ⟨nodes', after', hread', -, -, -, hlayout⟩ := hagrees
      exact .inl (parseText_of_ok hfuel hread' hlayout)
  | error fault after =>
      rw [hread] at hnameless hagrees
      -- the template does not name another one
      have hunnamed := h fault (parseText_of_fault hfuel hread)
      have htext := hnameless.resolve_right fun hmentions => hunnamed hmentions.2
      obtain ⟨fault', after', hread', hcause⟩ := hagrees.resolve_left hunnamed
      exact .inr ⟨fault', parseText_of_fault hfuel hread', hcause ▸ htext⟩

/-- **Every template is read to an end.**  A template that names no other one is parsed to a block
    or refused for a cause that lies in its text, under every file name.  And wherever a session
    with its lexer has led to, a body that is read from there on, raw or not, does not meet the end
    of the stream: whenever its loop looks at the next token, the outdent that closes the body is
    still to come. -/
theorem reading_ends (config : Config) (text : String) (filename : Option String)
    (h : Standalone config text) :
    ((∃ root, parseText config text filename = .ok root ∧ root.isBlock = true)
        ∨ ∃ fault, parseText config text filename = .error fault ∧ fault.cause.OfText)
      ∧ ∀ calls, (∀ call ∈ calls, call.KeepsLevel) →
        ∀ template start head token after,
          start.lexer = (run calls (ofSource text config.colons)).2 →
          InBlock template start head ∨ InRawBody template start head →
          peek template head = .ok token after → token.kind ≠ .eos := by
  refine ⟨h.parseText filename, ?_⟩
  intro calls hcalls template start head token after hstart hinside hlook
  have hsound : start.lexer.Sound := hstart ▸ run_sound text config.colons hcalls
  rcases hinside with hinside | hinside
  · exact hinside.ne_eos hsound hlook
  · exact hinside.ne_eos hsound hlook

/-- A script of which one line looks like the inclusion of a template, and a shorthand behind it. -/
def scriptText : String := "script\n  // (a\n    include b\n#c.d: p x"

theorem standalone_of_ok (h : (parseText config text none).isOk = true) :
    Standalone config text := by
  intro fault hfault
  rw [hfault] at h
  exact nomatch h

/-- Behind the tag of the script, with the first line of its body looked at, the body goes on. -/
theorem reading_ends_script :
    Standalone {} scriptText
      ∧ ((∃ root, parseText {} scriptText "page.jade" = .ok root ∧ root.isBlock = true)
        ∨ ∃ fault, parseText {} scriptText "page.jade" = .error fault ∧ fault.cause.OfText)
      ∧ (∀ call ∈ [Call.advance, .lookahead 1, .switch .raw], call.KeepsLevel)
      ∧ ∀ template start head token after,
        start.lexer = (run [.advance, .lookahead 1, .switch .raw] (ofSource scriptText)).2 →
        InRawBody template start head → peek template head = .ok token after →
        token.kind ≠ .eos := by
  have hstandalone : Standalone {} scriptText := standalone_of_ok (by decide +kernel)
  have hcalls : ∀ call ∈ [Call.advance, .lookahead 1, .switch .raw], call.KeepsLevel := by
    simp [Call.KeepsLevel]
  obtain ⟨hparse, hbodies⟩ := reading_ends {} scriptText "page.jade" hstandalone
  refine ⟨hstandalone, hparse, hcalls, ?_⟩
  intro template start head token after hstart hinside hlook
  exact hbodies _ hcalls template start head token after hstart (.inr hinside) hlook

end Stencil
