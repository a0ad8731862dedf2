import Stencil.Proofs.Grammar.Switches

/-! # Apart — raw lines and markup are never read in each other's mode

    Where a template is switched to raw lines, the lexer is ready
    (`SwitchesAt.ready`): nothing of the body was read as markup, since all that
    waits is its indent.  The body is then read to the line that ends it, and
    nothing behind the indentation of that line was read as raw text
    (`rawBlock_of_ready`): all that waits are outdents.  In between, every line that
    is not blank becomes a text node. -/

namespace Stencil

open Lexer Parse

variable {template : Template} {start state entered after : Progress} {token : Token}
  {block : Block BlockId Draft}

/-! ## Where a template is switched -/

/-- Reading a template from a state on, lines are read as they stand from another state on: the
    outcome depends on what is read there for a raw body.  No reader goes on after a fault, so a
    template depends on every raw body that it asks for. -/
def SwitchesAt (template : Template) (start state : Progress) : Prop :=
  DependsOn (fun raw : Progress → EStateM.Result Fault Progress (Block BlockId Draft) =>
    documentVia template raw start) (rawBlock template) state

/-- What is known behind the indent of a raw body: the lexer is inside it, and only that indent was
    read before. -/
structure EntersBody (state : Progress) (token : Token) (entered : Progress) : Prop where
  pending : state.lexer.pending = []
  stash : state.lexer.stash = [] ∨ state.lexer.stash = [token]
  holding : entered.lexer.Holding []
  lexeme : token.lexeme = .indent (indentWidth token)
  inRaw : ∃ lock, entered.lexer.lock = some lock
    ∧ InRaw lock.style (indentWidth token) 1 entered.lexer
  ahead : ∀ {tokens : List Token} {last : Lexer}, Reads entered.lexer tokens last →
    state.intoRaw.lexer.Ahead (token :: tokens)

/-- **Behind the indent of a raw body** the lexer is inside it, and only that indent was read
    before. -/
theorem Lexer.Ready.enters (h : state.lexer.Ready)
    (hexpect : expect template .indent state.intoRaw = .ok token entered) :
    EntersBody state token entered := by
  have hinside : token.kind = .indent → Behind token entered.lexer → entered.lexer.mode = .raw →
      token.lexeme = .indent (indentWidth token) ∧ ∃ lock, entered.lexer.lock = some lock
        ∧ InRaw lock.style (indentWidth token) 1 entered.lexer := by
    intro hkind hbehind hmode
    obtain ⟨width, hlexeme, hpending, ⟨outer, hlevels⟩, ⟨style, line, hlock⟩, hbegins⟩ :=
      hbehind.indent hkind
    obtain rfl : indentWidth token = width := by rw [indentWidth, hlexeme]
    refine ⟨hlexeme, ⟨style, line⟩, hlock, hmode, ⟨line, hlock⟩, hbegins.stops, ?_, [], outer,
      hlevels, ?_, nofun⟩
    · rw [hpending]
      exact nofun
    · rw [hpending]
      rfl
  rcases h.waiting with ⟨hstash, hpending⟩ | ⟨waiting, hstash, hbehind⟩
  · obtain ⟨hnext, hkind, hholding⟩ := expect_eq_ok_of_empty hexpect ⟨h.deferred, hstash⟩
    have hfollows : ∀ t ∈ state.intoRaw.lexer.pending, t.Follows := by
      show ∀ t ∈ state.lexer.pending, t.Follows
      rw [hpending]
      exact nofun
    have hsteps := next_steps hfollows hnext
    obtain ⟨hlexeme, hraw⟩ := hinside hkind hsteps.behind hsteps.mode
    exact ⟨hpending, .inl hstash, hholding, hlexeme, hraw,
      fun hreads => ahead_of_reads h.deferred hstash (.take hnext hreads)⟩
  · obtain ⟨rfl, hkind, hentered⟩ := expect_eq_ok_of_holding hexpect ⟨h.deferred, hstash⟩
    obtain ⟨width, -, hpending, -⟩ := hbehind.indent hkind
    obtain ⟨hlexeme, hraw⟩ := hinside hkind (by rw [hentered]; exact hbehind.congr rfl rfl rfl rfl)
      (by rw [hentered]; rfl)
    refine ⟨hpending, .inr hstash, hentered ▸ .withQueues _ _, hlexeme, hraw, fun hreads => ?_⟩
    rw [hentered] at hreads
    have hback := hreads.withQueues state.lexer.deferred state.lexer.stash
    exact ⟨h.deferred, _, _, hback, by rw [show state.intoRaw.lexer.stash = _ from hstash]; rfl⟩

/-! ## What a raw body makes of its lines -/

/-- The lines of a raw body reach its text nodes: each node is a text, and what stands on the lines
    that are not blank stands in these texts, in order. -/
def LinesReach (style : IndentStyle) (width : Nat) (text : List Char) (nodes : List Draft)
    (left : List Char) : Prop :=
  ∃ first others lines, Takes style width text first others left
    ∧ List.Forall₂ TextNode nodes lines ∧ Text.contents lines = Text.contents (first :: others)

/-- Raw lines and markup are kept apart where a raw body is read from a state on. -/
structure Apart (template : Template) (state : Progress) : Prop where
  /-- Up to here, lines were read as markup. -/
  mode : state.lexer.mode = .markup
  /-- If the reader goes on past the indent of the body, nothing waits but that indent. -/
  switch : ∀ token entered, expect template .indent state.intoRaw = .ok token entered →
    state.lexer.deferred = [] ∧ state.lexer.pending = []
      ∧ (state.lexer.stash = [] ∨ state.lexer.stash = [token])
  /-- When the body ends, nothing waits but outdents. -/
  back : ∀ block after, rawBlock template state = .ok block after →
    after.lexer.mode = .markup ∧ after.lexer.deferred = [] ∧ after.lexer.stash = []
      ∧ ∀ t ∈ after.lexer.pending, t.kind = .outdent
  /-- The body takes the lines behind its indent up to the first one that is narrower. -/
  lines : ∀ block after, rawBlock template state = .ok block after →
    ∃ token entered lock, expect template .indent state.intoRaw = .ok token entered
      ∧ entered.lexer.lock = some lock
      ∧ LinesReach lock.style (indentWidth token) entered.lexer.input block.nodes after.lexer.input

/-- **A raw body that is read from a ready lexer on** takes its lines, and leaves a tidy lexer. -/
theorem rawBlock_of_ready (h : state.lexer.Ready)
    (hrun : rawBlock template state = .ok block after) :
    after.lexer.Holding [] ∧ after.lexer.mode = .markup
      ∧ (∀ t ∈ after.lexer.pending, t.kind = .outdent)
      ∧ ∃ token entered lock, expect template .indent state.intoRaw = .ok token entered
        ∧ entered.lexer.lock = some lock
        ∧ LinesReach lock.style (indentWidth token) entered.lexer.input block.nodes
          after.lexer.input := by
  obtain ⟨token, entered, last, hexpect, hafter, hbody⟩ := rawBlock_body hrun
  obtain ⟨-, -, hholding, -, ⟨lock, hlock, hraw⟩, -⟩ := h.enters hexpect
  obtain ⟨hlast, tokens, hreads, hcloses, hnodes⟩ := hbody hholding
  obtain ⟨houtdents, first, others, htakes, hlines⟩ := hreads.captures hcloses hraw
  rw [hafter]
  exact ⟨⟨hlast.deferred, hlast.stash⟩, rfl, houtdents, token, entered, lock, hexpect, hlock,
    first, others, linesOf tokens, htakes, hnodes, hlines⟩

theorem apart_of_ready (h : state.lexer.Ready) : Apart template state where
  mode := h.mode
  switch _ _ hexpect :=
    have henters := h.enters hexpect
    ⟨h.deferred, henters.pending, henters.stash⟩
  back _ _ hrun :=
    have ⟨hholding, hmode, hpending, _⟩ := rawBlock_of_ready h hrun
    ⟨hmode, hholding.deferred, hholding.stash, hpending⟩
  lines _ _ hrun := (rawBlock_of_ready h hrun).2.2.2

/-- Raw bodies are read alike with any reader that agrees where the lexer is ready, and leave a tidy
    lexer. -/
theorem alike_rawBlock {raw : Parse (Block BlockId Draft)}
    (h : ∀ state, Between Ready state → rawBlock template state = raw state) :
    Alike (Between Ready) (rawBlock template) raw fun _ => Between (Tidy []) := by
  refine fun state hready => ⟨h state hready, fun block after hrun => ?_⟩
  obtain ⟨hholding, hmode, hpending, -⟩ := rawBlock_of_ready hready.2 hrun
  refine ⟨rawBlock_rawBase hrun hready.1, hmode, hholding.deferred,
    fun t ht => .inl (hpending t ht), ?_, ?_⟩
  · rw [hholding.stash]
    exact nofun
  · rw [hholding.stash]
    exact nofun

/-- **A template is switched where its lexer is ready**, and no raw body is open. -/
theorem SwitchesAt.ready (h : SwitchesAt template start state)
    (hstart : Between (Tidy []) start) : Between Ready state := by
  have hready := DependsOn.of_congr h fun other
      (hagree : ∀ asked : Progress, Between Ready asked →
        rawBlock template asked = other asked) =>
    (tidily_documentVia (alike_rawBlock hagree) start hstart).1
  exact hready

/-- A source is begun to be read with a tidy lexer. -/
theorem between_begin (config : Config) (source : Source) (assembly : Assembly) :
    Between (Tidy []) (source.begin config assembly) :=
  ⟨rfl, tidy_ofSource _ _⟩

/-- **Raw lines and markup are kept apart**, in every run over a source: where the template is
    switched, nothing waits but the indent of the body; when the body ends, nothing waits but
    outdents; and its lines that are not blank reach its text nodes.  A template that is read to its
    end is in markup mode there. -/
theorem rawBodies_apart (config : Config) (source : Source) (compose : Source → Assemble Composed)
    (owner : Nat) (assembly : Assembly) :
    (∀ state, SwitchesAt (source.template config compose owner) (source.begin config assembly)
        state → Apart (source.template config compose owner) state)
      ∧ ∀ nodes after, document (source.template config compose owner)
          (source.begin config assembly) = .ok nodes after → after.lexer.mode = .markup := by
  have hstart := between_begin config source assembly
  refine ⟨fun state hswitch => apart_of_ready (hswitch.ready hstart).2, fun nodes after hrun => ?_⟩
  rw [← documentVia_rawBlock] at hrun
  exact ((tidily_documentVia (alike_rawBlock fun _ _ => rfl) _ hstart).2 nodes after hrun).2.mode

/-! ### A page with a script -/

deriving instance DecidableEq for Progress

/-- A page with a script.  A line of the script starts like a tag, and one is blank. -/
def scriptPage : Source where
  text := "div\n  script\n    if (a < b)\n\n      p go\n  p end"

/-- The template of the page. -/
def scriptTemplate : Template := scriptPage.template {} (composeWith {} 0) 0

/-- Whether a run succeeds. -/
def succeeds {α : Type} : EStateM.Result Fault Progress α → Bool
  | .ok _ _ => true
  | .error _ _ => false

/-- The state in which the page is switched: a reader that refuses raw bodies stops there. -/
def scriptSwitch : Progress :=
  match documentVia scriptTemplate (fun state => .error ⟨.exhausted, {}⟩ state)
    (scriptPage.begin {} {}) with
  | .ok _ state => state
  | .error _ state => state

theorem rawBodies_apart_scriptPage :
    SwitchesAt scriptTemplate (scriptPage.begin {} {}) scriptSwitch
      ∧ succeeds (rawBlock scriptTemplate scriptSwitch) = true
      ∧ Apart scriptTemplate scriptSwitch := by
  have hswitch : SwitchesAt scriptTemplate (scriptPage.begin {} {}) scriptSwitch := by
    have hne : succeeds (documentVia scriptTemplate (Function.update (rawBlock scriptTemplate)
          scriptSwitch (.error ⟨.exhausted, {}⟩ scriptSwitch)) (scriptPage.begin {} {}))
        ≠ succeeds (documentVia scriptTemplate (rawBlock scriptTemplate)
          (scriptPage.begin {} {})) := by
      decide +kernel
    exact dependsOn_of_ne fun hsame => hne (congrArg succeeds hsame)
  exact ⟨hswitch, by decide +kernel,
    (rawBodies_apart {} scriptPage (composeWith {} 0) 0 {}).1 _ hswitch⟩

/-- The lines of the script, as they stand behind its indentation. -/
example : (match rawBlock scriptTemplate scriptSwitch with
    | .ok block _ => block.nodes.map Node.kind
    | .error _ _ => []) = [.text "if (a < b)", .text "", .text "  p go"] := by
  decide +kernel

end Stencil
