import Stencil.Proofs.Grammar.Indented
import Stencil.Proofs.Lexer.OpenBodies

/-! # The base of raw bodies — how long it is kept, and which body it is of

    The reader of raw bodies keeps the width of the outermost open one.  It is set
    by a body that finds it unset, and unset by a body of the same width; neither
    looks at how deep the body lies.

    Here the readers are given with a watcher, which is asked wherever a statement
    or a raw body begins or ends and at every token of a raw body, and which is
    told the widths of the open bodies.  A watcher that does not interfere leaves the
    readers as they are (`answered_eq`), and a run depends on what it is
    answered at each state that it passes (`PassesAt`).

    The lexer opens a body only for a line that is wider than the bodies around it
    (`Lexer.Bodies.next`).  So the base is that of the outermost body wherever a run
    passes, and no body inside it unsets it (`rawBase_scoped`). -/

namespace Stencil

open Lexer

/-- The base is the width of the outermost open body, if there is one, and every body is wider than
    the bodies around it. -/
structure Scoped (widths : List Nat) (progress : Progress) : Prop where
  base : progress.rawBase = widths.getLast?
  nested : widths.Pairwise (· > ·)

/-- The outermost body is the narrowest one. -/
theorem Scoped.base_le {widths : List Nat} {progress : Progress} (h : Scoped widths progress)
    {width : Nat} (hwidth : width ∈ widths) :
    ∃ base, progress.rawBase = some base ∧ base ≤ width := by
  obtain ⟨hbase, hnested⟩ := h
  rcases List.eq_nil_or_concat widths with rfl | ⟨inner, base, rfl⟩
  · exact nomatch hwidth
  · rw [List.concat_eq_append] at hbase hnested hwidth
    refine ⟨base, hbase.trans List.getLast?_concat, ?_⟩
    rcases List.mem_append.mp hwidth with hinner | hbase
    · have hwider := (List.pairwise_append.mp hnested).2.2 width hinner base List.mem_cons_self
      exact Nat.le_of_lt hwider
    · exact Nat.le_of_eq (List.mem_singleton.mp hbase).symm

/-- A lexer behind the indent of an outermost raw body. -/
theorem Lexer.InRaw.bodies {style : IndentStyle} {width : Nat} {lexer : Lexer}
    (h : InRaw style width 1 lexer) : lexer.Bodies [width] := by
  obtain ⟨hmode, -, hpending, outer, hlevels⟩ := h.inBody
  exact ⟨hmode, hpending ▸ nofun, outer, by rw [hpending]; exact hlevels⟩

namespace Parse

/-! ## Readers with a watcher -/

section Watched

variable (template : Template) (watch : List Nat → Parse Unit)

/-- Reads the lines of a raw body with a watcher. -/
def rawLinesWatched (deeper : Parse (Block BlockId Draft)) (indent : Nat) (widths : List Nat) :
    Nat → Parse (List Draft)
  | 0 => throw ⟨.exhausted, {}⟩
  | fuel + 1 => do
      watch widths
      let token ← peek template
      match token.kind with
      | .outdent => return []
      | .newline =>
          discard (advance template)
          rawLinesWatched deeper indent widths fuel
      | .indent =>
          let block ← deeper
          let nodes ← rawLinesWatched deeper indent widths fuel
          return block.nodes ++ nodes
      | _ =>
          let line ← advance template
          let text := String.ofList (List.replicate indent ' ') ++ line.value
          let node ← newNode line.line (.text text)
          let nodes ← rawLinesWatched deeper indent widths fuel
          return node :: nodes

/-- Reads a raw body with a watcher, inside of bodies of some widths. -/
def rawBlockWatched : Nat → List Nat → Parse (Block BlockId Draft)
  | 0, _ => throw ⟨.exhausted, {}⟩
  | fuel + 1, around => do
      watch around
      let token ← expect template .indent
      let width := indentWidth token
      let base := (← get).rawBase.getD width
      modify fun progress => { progress with rawBase := some base }
      let widths := width :: around
      let nodes ← rawLinesWatched template watch (rawBlockWatched fuel widths) (width - base) widths
        (← tokenBound)
      modify (closeBody width)
      watch around
      discard (expect template .outdent)
      newBlock token.line nodes

/-- Reads an outermost raw body with a watcher. -/
def rawWatched : Parse (Block BlockId Draft) := do
  setMode .raw
  let block ← rawBlockWatched template watch (← tokenBound) []
  setMode .markup
  return block

/-- Reads a statement with a watcher. -/
def statementWatched : Nat → Parse Draft
  | 0 => throw ⟨.exhausted, {}⟩
  | fuel + 1 => do
      watch []
      let node ← statementStepVia template (rawWatched template watch) (statementWatched fuel)
      watch []
      return node

/-- Reads the statements of a whole template with a watcher. -/
def documentWatched : Parse (List Draft) := do
  let bound ← tokenBound
  let nodes ← statements template (statementWatched template watch (2 * bound)) .eos
  watch []
  return nodes

end Watched

variable {α : Type} {template : Template} {watch : List Nat → Parse Unit} {widths around : List Nat}
  {width : Nat} {token : Token} {progress : Progress}

/-! ## What is known of a state -/

/-- A state in raw bodies, with nothing looked at. -/
structure InBodies (widths : List Nat) (progress : Progress) : Prop extends
    Scoped widths progress where
  holding : progress.lexer.Holding []
  bodies : progress.lexer.Bodies widths

/-- A state in raw bodies that has looked at a token. -/
structure LooksAt (widths : List Nat) (token : Token) (progress : Progress) : Prop extends
    Scoped widths progress where
  holding : progress.lexer.Holding [token]
  turns : ∃ widths', Turns widths token widths' ∧ (progress.lexer.withQueues [] []).Bodies widths'

/-- A state before a raw body that is wider than the bodies around it. -/
structure BeforeBody (template : Template) (around : List Nat) (progress : Progress) : Prop extends
    Scoped around progress where
  enters : ∀ token entered, expect template .indent progress = .ok token entered →
    entered.lexer.Holding [] ∧ entered.lexer.Bodies (indentWidth token :: around)
      ∧ ∀ outer ∈ around, outer < indentWidth token

theorem scoped_between {pre : Lexer → Prop} (h : Between pre progress) : Scoped [] progress :=
  ⟨h.1, .nil⟩

theorem LooksAt.beforeBody (h : LooksAt widths token progress) (hkind : token.kind = .indent) :
    BeforeBody template widths progress := by
  refine ⟨h.toScoped, fun taken entered hexpect => ?_⟩
  obtain ⟨rfl, -, hentered⟩ := expect_eq_ok_of_holding hexpect h.holding
  rw [hentered]
  obtain ⟨widths', hturns, hbodies⟩ := h.turns
  cases hturns with
  | @opens width hlexeme hwider =>
      obtain rfl : indentWidth taken = width := by rw [indentWidth, hlexeme]
      exact ⟨.withQueues _ _, hbodies, hwider⟩
  | closes houtdent => cases houtdent.symm.trans hkind
  | keeps hindent => exact absurd hkind hindent

/-! ## Readers of raw bodies -/

/-- A reader by itself, from what is known of its runs. -/
theorem alike_self {pre : Progress → Prop} {reader : Parse α} {post : α → Progress → Prop}
    (h : ∀ start result after, pre start → reader start = .ok result after → post result after) :
    Alike pre reader reader post :=
  fun start hpre => ⟨rfl, fun result after => h start result after hpre⟩

theorem Still.inBodies {reader : Parse α} (h : Still reader) :
    Alike (InBodies widths) reader reader fun _ => InBodies widths := by
  refine alike_self fun start result after hstart hrun => ?_
  obtain ⟨hlexer, hbase⟩ := h _ _ _ hrun
  exact ⟨⟨hbase.trans hstart.base, hstart.nested⟩, hlexer ▸ hstart.holding,
    hlexer ▸ hstart.bodies⟩

theorem alike_peekInBodies :
    Alike (InBodies widths) (peek template) (peek template) (LooksAt widths) := by
  refine alike_self fun start token looked hstart hrun => ?_
  obtain ⟨hnext, hlooked⟩ := peek_eq_ok hrun hstart.holding
  exact ⟨⟨(peek_rawBase hrun).trans hstart.base, hstart.nested⟩, hlooked,
    hstart.bodies.next hstart.nested hnext⟩

/-- A token that leaves the bodies alone is taken. -/
theorem alike_takeInBodies (hindent : token.kind ≠ .indent) (houtdent : token.kind ≠ .outdent) :
    Alike (LooksAt widths token) (advance template) (advance template)
      fun _ => InBodies widths := by
  refine alike_self fun start taken after hstart hrun => ?_
  obtain ⟨-, hafter⟩ := advance_eq_ok hrun hstart.holding
  obtain ⟨widths', hturns, hbodies⟩ := hstart.turns
  refine ⟨⟨(advance_rawBase hrun).trans hstart.base, hstart.nested⟩, hafter ▸ .withQueues _ _, ?_⟩
  rw [hafter]
  cases hturns with
  | opens hlexeme => exact absurd (congrArg Lexeme.kind hlexeme) hindent
  | closes hkind => exact absurd hkind houtdent
  | keeps => exact hbodies

theorem alike_boundInBodies :
    Alike (InBodies widths) tokenBound tokenBound fun _ => InBodies widths :=
  calm_get.still.inBodies.bind fun _ => alike_pure fun _ => id

/-! ## The ends of a raw body -/

/-- A state behind the indent of a body that is wider than the bodies around it. -/
structure BehindIndent (around : List Nat) (width : Nat) (progress : Progress) : Prop extends
    Scoped around progress where
  holding : progress.lexer.Holding []
  bodies : progress.lexer.Bodies (width :: around)
  wider : ∀ outer ∈ around, outer < width

/-- A state before the outdent that leads out of a body. -/
structure BeforeOutdent (around : List Nat) (last : Token) (progress : Progress) : Prop extends
    Scoped around progress where
  holding : progress.lexer.Holding [last]
  bodies : (progress.lexer.withQueues [] []).Bodies around

theorem alike_enter :
    Alike (BeforeBody template around) (expect template .indent) (expect template .indent)
      fun token => BehindIndent around (indentWidth token) := by
  refine alike_self fun start token entered hstart hrun => ?_
  obtain ⟨hholding, hbodies, hwider⟩ := hstart.enters token entered hrun
  exact ⟨⟨(expect_rawBase hrun).trans hstart.base, hstart.nested⟩, hholding, hbodies, hwider⟩

theorem alike_getBase :
    Alike (BehindIndent around width) (get : Parse Progress) get
      fun found progress =>
        found.rawBase = around.getLast? ∧ BehindIndent around width progress := by
  refine alike_self fun start found after hstart hrun => ?_
  cases hrun
  exact ⟨hstart.base, hstart⟩

/-- A body that finds the base unset sets it; then it is the outermost one. -/
theorem alike_open {f : Progress → Progress}
    (hf : ∀ progress, f progress
      = { progress with rawBase := some (around.getLast?.getD width) }) :
    Alike (BehindIndent around width) (modify f : Parse PUnit) (modify f)
      fun _ => InBodies (width :: around) := by
  refine alike_self fun start _ after hstart hrun => ?_
  cases hrun
  rw [hf]
  exact ⟨⟨List.getLast?_cons.symm, .cons hstart.wider hstart.nested⟩, hstart.holding,
    hstart.bodies⟩

/-- **A body that ends** unsets the base if it is the outermost one, and else keeps it: all others
    are wider. -/
theorem alike_close :
    Alike (fun progress => ∃ last, last.kind = .outdent ∧ LooksAt (width :: around) last progress)
      (modify (closeBody width) : Parse PUnit) (modify (closeBody width))
      fun _ progress => ∃ last, BeforeOutdent around last progress := by
  refine alike_self fun start _ after ⟨last, hkind, hstart⟩ hrun => ?_
  cases hrun
  obtain ⟨hwider, hnested⟩ := List.pairwise_cons.mp hstart.nested
  -- the outermost body, if it is not this one, is narrower
  have hopen : around.getLast? = none ∨ around.getLast?.getD width < width := by
    cases hlast : around.getLast? with
    | none => exact .inl rfl
    | some outermost => exact .inr (hwider outermost (List.mem_of_getLast? hlast))
  have hbase := rawBase_closeBody (hstart.base.trans List.getLast?_cons) rfl hopen
  obtain ⟨rawBase, hclosed⟩ := closeBody_eq width start
  have hlexer : (closeBody width start).lexer = start.lexer := by rw [hclosed]
  obtain ⟨widths', hturns, hbodies⟩ := hstart.turns
  refine ⟨last, ⟨hbase, hnested⟩, hlexer ▸ hstart.holding, ?_⟩
  rw [hlexer]
  cases hturns with
  | opens hlexeme => exact nomatch hkind.symm.trans (congrArg Lexeme.kind hlexeme)
  | closes => exact hbodies
  | keeps _ houtdent => exact absurd hkind houtdent

theorem alike_leave :
    Alike (fun progress => ∃ last, BeforeOutdent around last progress) (expect template .outdent)
      (expect template .outdent) fun _ => InBodies around := by
  refine alike_self fun start taken after ⟨last, hstart⟩ hrun => ?_
  obtain ⟨-, -, hafter⟩ := expect_eq_ok_of_holding hrun hstart.holding
  exact ⟨⟨(expect_rawBase hrun).trans hstart.base, hstart.nested⟩, hafter ▸ .withQueues _ _,
    hafter ▸ hstart.bodies⟩

section Watching

variable (hwatch : ∀ widths progress, Scoped widths progress →
  watch widths progress = .ok () progress)
include hwatch

/-- Where the base is right, the watcher does not interfere. -/
theorem Alike.watched {pre : Progress → Prop} {reader other : Parse α}
    {post : α → Progress → Prop} (hscoped : ∀ progress, pre progress → Scoped widths progress)
    (h : Alike pre reader other post) :
    Alike pre reader (watch widths >>= fun _ => other) post := by
  intro progress hpre
  have hwatched : (watch widths >>= fun _ => other) progress = other progress := by
    show EStateM.bind (watch widths) (fun _ => other) progress = _
    rw [EStateM.bind, hwatch widths progress (hscoped progress hpre)]
  rw [hwatched]
  exact h progress hpre

theorem alike_rawLinesWatched {deeper deeper' : Parse (Block BlockId Draft)} {indent : Nat}
    (hdeeper : Alike (BeforeBody template widths) deeper deeper' fun _ => InBodies widths)
    (fuel : Nat) :
    Alike (InBodies widths) (rawLinesWith template deeper indent fuel)
      (rawLinesWatched template watch deeper' indent widths fuel)
      fun _ progress => ∃ token, token.kind = .outdent ∧ LooksAt widths token progress := by
  -- between two tokens nothing was looked at, and the same bodies are open
  induction fuel with
  | zero => exact alike_throw
  | succ fuel ih =>
      refine .watched hwatch (fun _ => InBodies.toScoped) (alike_peekInBodies.bind fun token => ?_)
      cases hkind : token.kind with
      | outdent => exact alike_pure fun _ hlooks => ⟨token, hkind, hlooks⟩
      | newline =>
          rw [discard_bind, discard_bind]
          exact (alike_takeInBodies (by simp [hkind]) (by simp [hkind])).bind fun _ => ih
      | indent =>
          refine (hdeeper.imp (fun _ hlooks => hlooks.beforeBody hkind) fun _ _ => id).bind
            fun block => ?_
          exact ih.bind fun _ => alike_pure fun _ => id
      | _ =>
          refine (alike_takeInBodies (by simp [hkind]) (by simp [hkind])).bind fun line => ?_
          exact calm_newNode.still.inBodies.bind fun _ => ih.bind fun _ => alike_pure fun _ => id

theorem alike_rawBlockWatched (fuel : Nat) : ∀ around : List Nat,
    Alike (BeforeBody template around) (rawBlockWith template fuel)
      (rawBlockWatched template watch fuel around) fun _ => InBodies around := by
  -- for all bodies around: inside of this one, it is one of them
  induction fuel with
  | zero => exact fun _ => alike_throw
  | succ fuel ih =>
      intro around
      refine .watched hwatch (fun _ => BeforeBody.toScoped) (alike_enter.bind fun token => ?_)
      refine alike_getBase.bind fun found => .of_and fun hbase => ?_
      rw [hbase]
      refine (alike_open fun _ => rfl).bind fun _ => alike_boundInBodies.bind fun bound => ?_
      refine (alike_rawLinesWatched hwatch (ih _) bound).bind fun nodes => ?_
      refine alike_close.bind fun _ => ?_
      refine .watched hwatch (fun _ ⟨_, hleaves⟩ => hleaves.toScoped) ?_
      rw [discard_bind]
      exact alike_leave.bind fun _ => calm_newBlock.still.inBodies

/-- **A raw body** is read with the watcher as without, from a ready lexer on. -/
theorem alike_rawWatched :
    Alike (Between Ready) (rawBlock template) (rawWatched template watch)
      fun _ => Between (Tidy []) := by
  have hswitch : Alike (Between Ready) (setMode .raw) (setMode .raw)
      fun _ => BeforeBody template [] := by
    refine alike_self fun start _ after hstart hrun => ?_
    cases hrun
    refine ⟨⟨hstart.1, .nil⟩, fun token entered hexpect => ?_⟩
    obtain ⟨-, -, hholding, -, ⟨lock, -, hraw⟩, -⟩ := hstart.2.enters hexpect
    exact ⟨hholding, hraw.bodies, nofun⟩
  have hbound : Alike (BeforeBody template []) tokenBound tokenBound
      fun _ => BeforeBody template [] := by
    refine alike_self fun start _ after hstart hrun => ?_
    cases hrun
    exact hstart
  have hback : Alike (InBodies []) (setMode .markup) (setMode .markup)
      fun _ => Between (Tidy []) := by
    refine alike_self fun start _ after hstart hrun => ?_
    cases hrun
    refine ⟨hstart.base, rfl, hstart.holding.deferred,
      fun t ht => .inl (hstart.bodies.pending t ht), ?_, ?_⟩
    · rw [show start.lexer.stash = [] from hstart.holding.stash]
      exact nofun
    · rw [show start.lexer.stash = [] from hstart.holding.stash]
      exact nofun
  exact hswitch.bind fun _ => hbound.bind fun fuel =>
    (alike_rawBlockWatched hwatch fuel []).bind fun _ => hback.bind fun _ => alike_pure fun _ => id

/-! ## Statements -/

theorem tidily_statementWatched (fuel : Nat) :
    Tidily (statementVia template (rawBlock template) fuel) (statementWatched template watch fuel)
      ∧ TidilyShort (statementVia template (rawBlock template) fuel)
        (statementWatched template watch fuel) := by
  have hends : ∀ {pre : Lexer → Prop} {reader other : Parse Draft},
      Alike (Between pre) reader other (fun _ => Between (Tidy [])) →
        Alike (Between pre) reader
          (do watch []
              let node ← other
              watch []
              return node) fun _ => Between (Tidy []) := by
    intro pre reader other h
    rw [← bind_pure reader]
    exact .watched hwatch (fun _ => scoped_between) (h.bind fun _ =>
      .watched hwatch (fun _ => scoped_between) tidily_pure)
  induction fuel with
  | zero => exact ⟨alike_throw, fun _ _ _ _ => alike_throw⟩
  | succ fuel ih =>
      have hraw : Alike (Between Ready) (rawBlock template) (rawWatched template watch)
          fun _ => Between (Tidy []) := alike_rawWatched hwatch
      exact ⟨hends (tidily_statementStepVia hraw ih.1 ih.2), fun tag part htag hpart =>
        hends (statementStepVia_shorthand hraw ih.1 tag part htag hpart)⟩

/-- **A whole template** is read with the watcher as without. -/
theorem tidily_documentWatched :
    Tidily (document template) (documentWatched template watch) := by
  rw [← documentVia_rawBlock]
  refine tidily_tokenBound.bind fun bound => ?_
  rw [← bind_pure (statements template _ .eos)]
  exact (tidily_statements (tidily_statementWatched hwatch _).1).bind fun _ =>
    .watched hwatch (fun _ => scoped_between) tidily_pure

end Watching

end Parse

open Parse

variable {template : Template} {start state : Progress} {widths : List Nat}

/-! ## The states that a run passes -/

/-- The answers of a watcher that does not interfere. -/
def idle (question : List Nat × Progress) : EStateM.Result Fault Progress Unit := .ok () question.2

/-- Reads a template and asks for an answer wherever a run passes. -/
def answered (template : Template)
    (answers : List Nat × Progress → EStateM.Result Fault Progress Unit) : Parse (List Draft) :=
  documentWatched template fun widths progress => answers (widths, progress)

/-- Reading a template from a state on, a watcher is asked in another state and told these widths:
    the outcome depends on what is answered there.  No reader goes on after a fault, so a template
    depends on every answer that it gets. -/
def PassesAt (template : Template) (start : Progress) (widths : List Nat) (state : Progress) :
    Prop :=
  DependsOn (fun answers => answered template answers start) idle (widths, state)

/-- Answers that do not interfere where the base is right never interfere. -/
theorem answered_eq (hstart : Between (Tidy []) start)
    {answers : List Nat × Progress → EStateM.Result Fault Progress Unit}
    (h : ∀ question : List Nat × Progress, Scoped question.1 question.2 →
      idle question = answers question) :
    answered template answers start = document template start :=
  (tidily_documentWatched (fun widths progress hscoped => (h (widths, progress) hscoped).symm)
    start hstart).1.symm

theorem PassesAt.scoped (h : PassesAt template start widths state)
    (hstart : Between (Tidy []) start) : Scoped widths state := by
  have hscoped := DependsOn.of_congr h fun other
      (hagree : ∀ question : List Nat × Progress, Scoped question.1 question.2 →
        idle question = other question) =>
    (answered_eq hstart fun _ _ => rfl).trans (answered_eq hstart hagree).symm
  exact hscoped

/-- **The base of raw bodies is well scoped**, in every run over a source.  Where no raw body is
    open it is unset, and inside of raw bodies it is the width of the outermost one; each body is
    wider than those around it, so no line is indented by less than nothing; and a body that ends
    leaves the base to the bodies around it, if there are any.  A template that is read to its end
    leaves none.  To ask for answers at the states that a run passes changes nothing by itself. -/
theorem rawBase_scoped (config : Config) (source : Source) (compose : Source → Assemble Composed)
    (owner : Nat) (assembly : Assembly) :
    answered (source.template config compose owner) idle (source.begin config assembly)
        = document (source.template config compose owner) (source.begin config assembly)
      ∧ (∀ widths state, PassesAt (source.template config compose owner)
          (source.begin config assembly) widths state →
            state.rawBase = widths.getLast? ∧ widths.Pairwise (· > ·)
              ∧ ∀ width ∈ widths, ∃ base, state.rawBase = some base ∧ base ≤ width)
      ∧ ∀ nodes after, document (source.template config compose owner)
          (source.begin config assembly) = .ok nodes after → after.rawBase = none := by
  have hstart := between_begin config source assembly
  refine ⟨answered_eq hstart fun _ _ => rfl, fun widths state hpasses => ?_, ?_⟩
  · have hscoped := hpasses.scoped hstart
    exact ⟨hscoped.base, hscoped.nested, fun width hwidth => hscoped.base_le hwidth⟩
  · intro nodes after hrun
    rw [← documentVia_rawBlock] at hrun
    exact ((tidily_documentVia (alike_rawBlock fun _ _ => rfl) _ hstart).2 nodes after hrun).1

/-! ### A page with a body inside a body -/

/-- A page with a script, one line of which is deeper than the first. -/
def deeperPage : Source where
  text := "script\n  a\n    b\np"

/-- The template of the page. -/
def deeperTemplate : Template := deeperPage.template {} (composeWith {} 0) 0

/-- The state in the inner body: a watcher that refuses it stops there. -/
def deeperState : Progress :=
  match answered deeperTemplate (fun (widths, state) =>
      if widths = [4, 2] then .error ⟨.exhausted, {}⟩ state else .ok () state)
    (deeperPage.begin {} {}) with
  | .ok _ state => state
  | .error _ state => state

theorem rawBase_scoped_deeperPage :
    PassesAt deeperTemplate (deeperPage.begin {} {}) [4, 2] deeperState
      ∧ deeperState.rawBase = some 2
      ∧ ∃ nodes after, document deeperTemplate (deeperPage.begin {} {}) = .ok nodes after
        ∧ after.rawBase = none := by
  have hpasses : PassesAt deeperTemplate (deeperPage.begin {} {}) [4, 2] deeperState := by
    have hne : succeeds (answered deeperTemplate (Function.update idle ([4, 2], deeperState)
          (.error ⟨.exhausted, {}⟩ deeperState)) (deeperPage.begin {} {}))
        ≠ succeeds (answered deeperTemplate idle (deeperPage.begin {} {})) := by
      decide +kernel
    exact dependsOn_of_ne fun hsame => hne (congrArg succeeds hsame)
  obtain ⟨-, hscoped, hends⟩ := rawBase_scoped {} deeperPage (composeWith {} 0) 0 {}
  refine ⟨hpasses, (hscoped _ _ hpasses).1, ?_⟩
  have hsucceeds : succeeds (document deeperTemplate (deeperPage.begin {} {})) = true := by
    decide +kernel
  cases hrun : document deeperTemplate (deeperPage.begin {} {}) with
  | ok nodes after => exact ⟨nodes, after, rfl, hends nodes after hrun⟩
  | error fault after =>
      rw [hrun] at hsucceeds
      exact nomatch hsucceeds

end Stencil
