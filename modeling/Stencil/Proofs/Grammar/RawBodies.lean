import Mathlib.Data.List.Forall2
import Stencil.Proofs.Grammar.Bodies
import Stencil.Proofs.Lexer.RawLines

/-! # Raw bodies — the nodes of a body and the tokens they come from

    The reader of a raw body looks one token ahead and no further, so between
    two lines nothing waits (`Holding`).  Its tokens are those that the lexer
    gives from the indent on, up to the outdent that leads out of it, and its
    nodes are the lines among them, in order (`Body`). -/

namespace Stencil

open Lexer

/-- A lexer whose reader has put nothing in, and has looked at these tokens. -/
structure Lexer.Holding (stash : List Token) (lexer : Lexer) : Prop where
  deferred : lexer.deferred = []
  stash : lexer.stash = stash

theorem Lexer.Holding.withQueues (lexer : Lexer) (stash : List Token) :
    (lexer.withQueues [] stash).Holding stash := ⟨rfl, rfl⟩

theorem Lexer.Holding.withQueues_eq {lexer : Lexer} {stash : List Token}
    (h : lexer.Holding stash) : lexer.withQueues [] stash = lexer := by
  rw [Lexer.withQueues, ← h.deferred, ← h.stash]

/-- A state from which on lines are read as they stand. -/
def Progress.intoRaw (start : Progress) : Progress :=
  { start with lexer := { start.lexer with mode := .raw } }

/-! ## Tokens that lead out -/

section Depth

variable {depth depth' more : Nat} {tokens others : List Token} {kind : TokenKind}

theorem TokenKind.Moves.add (h : kind.Moves depth depth') (more : Nat) :
    kind.Moves (depth + more) (depth' + more) := by
  cases h with
  | keep hindent houtdent => exact .keep hindent houtdent
  | indent => exact Nat.add_right_comm _ 1 more ▸ .indent
  | outdent => exact Nat.add_right_comm _ 1 more ▸ .outdent

/-- Out of some blocks, and then out of others. -/
theorem Lexer.Closes.append (h : Closes depth tokens) (hmore : Closes more others) :
    Closes (depth + more) (tokens ++ others) := by
  induction h with
  | done =>
      rw [Nat.zero_add]
      exact hmore
  | @step depth depth' token tokens hmoves _ ih =>
      have hstep := hmoves.add more
      rw [Nat.add_right_comm] at hstep ⊢
      exact .step hstep ih

/-- Tokens that stay inside a block. -/
def Lexer.Inside (tokens : List Token) : Prop :=
  ∀ depth more, Closes (depth + 1) more → Closes (depth + 1) (tokens ++ more)

theorem Lexer.inside_nil : Inside [] := fun _ _ => id

theorem Lexer.Inside.cons {token : Token} (h : Inside tokens)
    (hindent : token.kind ≠ .indent) (houtdent : token.kind ≠ .outdent) :
    Inside (token :: tokens) :=
  fun depth more hmore => .step (.keep hindent houtdent) (h depth more hmore)

/-- An indent, and what leads out of the block that it opens. -/
theorem Lexer.Inside.block {token : Token} {body : List Token} (h : Inside tokens)
    (hkind : token.kind = .indent) (hbody : Closes 1 body) :
    Inside (token :: (body ++ tokens)) := by
  intro depth more hmore
  have hrest := hbody.append (h depth more hmore)
  rw [Nat.add_comm 1, ← List.append_assoc] at hrest
  exact .step (hkind ▸ .indent) hrest

/-- Tokens inside a block, and the outdent that ends it. -/
theorem Lexer.Inside.closes {token : Token} (h : Inside tokens) (hkind : token.kind = .outdent) :
    Closes 1 (tokens ++ [token]) :=
  h 0 [token] (.step (hkind ▸ .outdent) .done)

end Depth

namespace Parse

variable {α : Type} {template : Template} {start looked after : Progress} {token taken : Token}
  {kind : TokenKind}

/-! ## Tokens -/

/-- A successful action on the lexer, seen from the lexer. -/
theorem onLexer_eq_ok {action : Lexer → Outcome α} {result : α}
    (h : onLexer template action start = .ok result after) :
    action start.lexer = (.ok result, after.lexer) := by
  unfold onLexer at h
  rcases haction : action start.lexer with ⟨fault | value, lexer⟩
  · rw [haction] at h
    cases h
  · rw [haction] at h
    cases h
    rfl

theorem onLexer_rawBase {action : Lexer → Outcome α} {result : α}
    (h : onLexer template action start = .ok result after) : after.rawBase = start.rawBase := by
  unfold onLexer at h
  rcases haction : action start.lexer with ⟨fault | value, lexer⟩
  · rw [haction] at h
    cases h
  · rw [haction] at h
    cases h
    rfl

theorem lexer_peekAt_of_ok {offset : Nat}
    (h : peekAt template offset start = .ok token looked) :
    start.lexer.peekAt offset = (.ok token, looked.lexer) := by
  unfold peekAt at h
  exact onLexer_eq_ok h

theorem peek_rawBase (h : peek template start = .ok token looked) :
    looked.rawBase = start.rawBase := by
  unfold peek peekAt at h
  exact onLexer_rawBase h

theorem advance_rawBase (h : advance template start = .ok taken after) :
    after.rawBase = start.rawBase :=
  onLexer_rawBase h

theorem lexer_peek_of_ok (h : peek template start = .ok token looked) :
    start.lexer.peekAt 0 = (.ok token, looked.lexer) :=
  lexer_peekAt_of_ok h

theorem lexer_advance_of_ok (h : advance template start = .ok taken after) :
    start.lexer.advance = (.ok taken, after.lexer) :=
  onLexer_eq_ok h

/-- A look when nothing was looked at reads the next token. -/
theorem peek_eq_ok (h : peek template start = .ok token looked) (hlexer : start.lexer.Holding []) :
    start.lexer.next = (.ok token, looked.lexer.withQueues [] [])
      ∧ looked.lexer.Holding [token] := by
  rcases peekAt_eq_ok (lexer_peek_of_ok h) (Nat.zero_le _) with
    ⟨hwaiting, -⟩ | ⟨-, scanned, hnext, hlooked⟩
  · rw [hlexer.deferred, hlexer.stash] at hwaiting
    exact nomatch hwaiting
  · obtain ⟨hdeferred, hstash⟩ := next_queues hnext
    have hscanned : scanned.Holding [] :=
      ⟨hdeferred.trans hlexer.deferred, hstash.trans hlexer.stash⟩
    rw [hlexer.stash, List.nil_append] at hlooked
    rw [hlooked]
    refine ⟨?_, hscanned.deferred, rfl⟩
    rw [hnext]
    exact congrArg (Except.ok token, ·) hscanned.withQueues_eq.symm

/-- A step takes the token that was looked at. -/
theorem advance_eq_ok (h : advance template looked = .ok taken after)
    (hlexer : looked.lexer.Holding [token]) :
    taken = token ∧ after.lexer = looked.lexer.withQueues [] [] := by
  have hadvance := lexer_advance_of_ok h
  rw [Lexer.advance, hlexer.deferred, hlexer.stash] at hadvance
  obtain ⟨htaken, hafter⟩ := Prod.mk.inj hadvance
  refine ⟨(Except.ok.inj htaken).symm, ?_⟩
  rw [← hafter, Lexer.withQueues, ← hlexer.deferred]

/-- A look at the token that was looked at changes nothing. -/
theorem peek_eq_ok_of_holding (h : peek template start = .ok taken looked)
    (hlexer : start.lexer.Holding [token]) : taken = token ∧ looked.lexer = start.lexer := by
  rcases peekAt_eq_ok (lexer_peek_of_ok h) (Nat.zero_le _) with ⟨hwaiting, hlooked⟩ | ⟨hnone, -⟩
  · rw [hlexer.deferred, hlexer.stash] at hwaiting
    exact ⟨(Option.some.inj hwaiting).symm, hlooked⟩
  · rw [hlexer.deferred, hlexer.stash] at hnone
    exact nomatch hnone

/-- A token that was expected was looked at, is of the kind, and is taken. -/
theorem expect_eq_ok (h : expect template kind start = .ok taken after) :
    ∃ token looked, peek template start = .ok token looked ∧ token.kind = kind
      ∧ advance template looked = .ok taken after := by
  obtain ⟨token, looked, hlook, hrest⟩ := bind_eq_ok h
  by_cases hkind : token.kind = kind
  · rw [if_pos (beq_iff_eq.mpr hkind)] at hrest
    exact ⟨token, looked, hlook, hkind, hrest⟩
  · rw [if_neg (by simpa using hkind)] at hrest
    cases hrest

/-- A token that was looked at, and is expected, is taken. -/
theorem expect_eq_ok_of_holding (h : expect template kind start = .ok taken after)
    (hlexer : start.lexer.Holding [token]) :
    taken = token ∧ token.kind = kind ∧ after.lexer = start.lexer.withQueues [] [] := by
  obtain ⟨found, looked, hlook, hkind, hadvance⟩ := expect_eq_ok h
  obtain ⟨rfl, hlooked⟩ := peek_eq_ok_of_holding hlook hlexer
  rw [← hlooked] at hlexer
  obtain ⟨htaken, hafter⟩ := advance_eq_ok hadvance hlexer
  exact ⟨htaken, hkind, by rw [hafter, hlooked]⟩

/-- A token that is expected is the next one. -/
theorem expect_eq_ok_of_empty (h : expect template kind start = .ok taken after)
    (hlexer : start.lexer.Holding []) :
    start.lexer.next = (.ok taken, after.lexer) ∧ taken.kind = kind
      ∧ after.lexer.Holding [] := by
  obtain ⟨found, looked, hlook, hkind, hadvance⟩ := expect_eq_ok h
  obtain ⟨hnext, hlooked⟩ := peek_eq_ok hlook hlexer
  obtain ⟨rfl, hafter⟩ := advance_eq_ok hadvance hlooked
  rw [hafter]
  exact ⟨hnext, hkind, .withQueues _ _⟩

/-- A run that drops the result of a reader, and goes on. -/
theorem discard_bind_eq_ok {β : Type} {reader : Parse α} {next : Unit → Parse β} {result : β}
    (h : (discard reader >>= next) start = .ok result after) :
    ∃ value middle, reader start = .ok value middle ∧ next () middle = .ok result after := by
  rw [discard_bind] at h
  exact bind_eq_ok h

/-! ## The nodes of a body -/

/-- A text node for a line, with more spaces in front of it. -/
def TextNode (node : Draft) (line : List Char) : Prop :=
  ∃ own number extra, node
    = .make own number (.text (String.ofList (List.replicate extra ' ' ++ line))) []

/-- A line that is indented once more, as the loop over raw lines makes it. -/
theorem textNode_indented (own : Option BlockId) (number : Int) (indent : Nat) (value : String) :
    TextNode (.make own number (.text (String.ofList (List.replicate indent ' ') ++ value)) [])
      value.toList :=
  ⟨own, number, indent, by rw [String.ofList_append, String.ofList_toList]⟩

/-- Nodes that are the lines of a raw body, between the lexer behind its indent and the one behind
    the outdent that leads out of it. -/
def Body (nodes : List Draft) (before after : Lexer) : Prop :=
  ∃ tokens, Reads before tokens after ∧ Closes 1 tokens
    ∧ List.Forall₂ TextNode nodes (linesOf tokens)

variable {deeper : Parse (Block BlockId Draft)} {indent : Nat} {nodes : List Draft}
  {block : Block BlockId Draft}

/-- The loop over raw lines reads up to an outdent that it looks at. -/
theorem rawLinesWith_reads
    (hdeeper : ∀ {start after : Progress} {block : Block BlockId Draft} {token : Token},
      start.lexer.Holding [token] → token.kind = .indent → deeper start = .ok block after →
        after.lexer.Holding [] ∧ Body block.nodes (start.lexer.withQueues [] []) after.lexer)
    (fuel : Nat) : ∀ {start after : Progress} {nodes : List Draft}, start.lexer.Holding [] →
      rawLinesWith template deeper indent fuel start = .ok nodes after →
        ∃ tokens token, token.kind = .outdent ∧ after.lexer.Holding [token]
          ∧ Reads start.lexer (tokens ++ [token]) (after.lexer.withQueues [] [])
          ∧ Inside tokens ∧ List.Forall₂ TextNode nodes (linesOf tokens) := by
  induction fuel with
  | zero => exact fun _ hrun => nomatch hrun
  | succ fuel ih =>
      intro start after nodes hlexer hrun
      obtain ⟨token, looked, hlook, hrest⟩ := bind_eq_ok hrun
      obtain ⟨hnext, hlooked⟩ := peek_eq_ok hlook hlexer
      cases hkind : token.kind with
      | outdent =>
          rw [hkind] at hrest
          cases hrest
          exact ⟨[], token, hkind, hlooked, .take hnext (.done _), inside_nil, .nil⟩
      | newline =>
          rw [hkind] at hrest
          obtain ⟨taken, middle, hadvance, hloop⟩ := discard_bind_eq_ok hrest
          obtain ⟨-, hmiddle⟩ := advance_eq_ok hadvance hlooked
          obtain ⟨tokens, last, hlast, hafter, hreads, hinside, hnodes⟩ :=
            ih (hmiddle ▸ .withQueues _ _) hloop
          refine ⟨token :: tokens, last, hlast, hafter, .take hnext (hmiddle ▸ hreads), ?_, ?_⟩
          · exact hinside.cons (by simp [hkind]) (by simp [hkind])
          · rw [linesOf_cons_none (lineOf?_newline hkind)]
            exact hnodes
      | indent =>
          rw [hkind] at hrest
          obtain ⟨block, middle, hblock, hmore⟩ := bind_eq_ok hrest
          obtain ⟨others, final, hloop, hpure⟩ := bind_eq_ok hmore
          cases hpure
          obtain ⟨hmiddle, body, hbody, hcloses, hlines⟩ := hdeeper hlooked hkind hblock
          obtain ⟨tokens, last, hlast, hafter, hreads, hinside, hnodes⟩ := ih hmiddle hloop
          refine ⟨token :: (body ++ tokens), last, hlast, hafter, ?_,
            hinside.block hkind hcloses, ?_⟩
          · rw [List.cons_append, List.append_assoc]
            exact .take hnext (hbody.append hreads)
          · rw [linesOf_cons_none (lineOf?_indent hkind), linesOf, List.filterMap_append]
            exact List.rel_append hlines hnodes
      | _ =>
          rw [hkind] at hrest
          obtain ⟨taken, middle, hadvance, hmore⟩ := bind_eq_ok hrest
          obtain ⟨node, made, hnode, hmore⟩ := bind_eq_ok hmore
          obtain ⟨others, final, hloop, hpure⟩ := bind_eq_ok hmore
          cases hpure
          cases hnode
          obtain ⟨rfl, hmiddle⟩ := advance_eq_ok hadvance hlooked
          obtain ⟨tokens, last, hlast, hafter, hreads, hinside, hnodes⟩ :=
            ih (hmiddle ▸ .withQueues _ _) hloop
          refine ⟨taken :: tokens, last, hlast, hafter, .take hnext (hmiddle ▸ hreads), ?_, ?_⟩
          · exact hinside.cons (by simp [hkind]) (by simp [hkind])
          · have hsome : lineOf? taken = some taken.value.toList := by rw [lineOf?, hkind]
            rw [linesOf_cons_some hsome]
            exact .cons (textNode_indented _ _ indent taken.value) hnodes

/-- A raw body is read from behind its indent to behind the outdent that leads out of it. -/
theorem rawBlockWith_body (fuel : Nat) : ∀ {start after : Progress} {block : Block BlockId Draft},
    rawBlockWith template fuel start = .ok block after →
      ∃ token entered, expect template .indent start = .ok token entered
        ∧ (entered.lexer.Holding [] →
          after.lexer.Holding [] ∧ Body block.nodes entered.lexer after.lexer) := by
  induction fuel with
  | zero => exact fun hrun => nomatch hrun
  | succ fuel ih =>
      intro start after block hrun
      obtain ⟨token, entered, hexpect, hrest⟩ := bind_eq_ok hrun
      obtain ⟨_, _, ⟨⟩, hrest⟩ := bind_eq_ok hrest
      obtain ⟨_, _, ⟨⟩, hrest⟩ := bind_eq_ok hrest
      obtain ⟨_, _, ⟨⟩, hrest⟩ := bind_eq_ok hrest
      obtain ⟨nodes, looked, hloop, hrest⟩ := bind_eq_ok hrest
      obtain ⟨_, unbased, hunbased, hrest⟩ := bind_eq_ok hrest
      obtain ⟨_, last, hlast, hblock⟩ := discard_bind_eq_ok hrest
      cases hblock
      refine ⟨token, entered, hexpect, fun hentered => ?_⟩
      have hdeeper : ∀ {start after : Progress} {block : Block BlockId Draft} {token : Token},
          start.lexer.Holding [token] → token.kind = .indent →
          rawBlockWith template fuel start = .ok block after →
            after.lexer.Holding []
              ∧ Body block.nodes (start.lexer.withQueues [] []) after.lexer := by
        intro start after block token hlexer hindent hdeeper
        obtain ⟨opening, inside, hopening, hbody⟩ := ih hdeeper
        obtain ⟨-, -, hinside⟩ := expect_eq_ok_of_holding hopening hlexer
        rw [hinside] at hbody
        exact hbody (.withQueues _ _)
      obtain ⟨tokens, outdent, hkind, hlooked, hreads, hinside, hnodes⟩ :=
        rawLinesWith_reads hdeeper _ (by exact hentered) hloop
      -- forgetting the width of the outermost body leaves the lexer alone
      have hsame : unbased.lexer = looked.lexer := by
        replace hunbased : (fun progress : Progress =>
            if progress.rawBase = some (indentWidth token) then { progress with rawBase := none }
            else progress) looked = unbased := by
          cases hunbased
          rfl
        rw [← hunbased]
        dsimp only
        split <;> rfl
      rw [← hsame] at hlooked hreads
      obtain ⟨rfl, -, hafter⟩ := expect_eq_ok_of_holding hlast hlooked
      rw [← hafter] at hreads
      refine ⟨hafter ▸ .withQueues _ _, tokens ++ [_], hreads, hinside.closes hkind, ?_⟩
      rw [linesOf, List.filterMap_append, List.filterMap_cons_none (lineOf?_outdent hkind),
        List.filterMap_nil, List.append_nil]
      exact hnodes

/-! ## The body that is open -/

/-- The same raw body is open, or none is. -/
def KeepsBase (start after : Progress) : Prop :=
  after.rawBase = start.rawBase ∨ after.rawBase = none

theorem KeepsBase.trans {middle : Progress} (h : KeepsBase start middle)
    (hafter : KeepsBase middle after) : KeepsBase start after :=
  hafter.elim (fun hsame => h.imp hsame.trans hsame.trans) .inr

theorem expect_rawBase (h : expect template kind start = .ok taken after) :
    after.rawBase = start.rawBase := by
  obtain ⟨_, _, hlook, _, hadvance⟩ := expect_eq_ok h
  exact (advance_rawBase hadvance).trans (peek_rawBase hlook)

/-- A step of the loop over raw lines. -/
theorem rawStep_keepsBase
    (hdeeper : ∀ {start after : Progress} {block : Block BlockId Draft},
      deeper start = .ok block after → KeepsBase start after)
    (h : rawStep template deeper indent token start = .ok () after) : KeepsBase start after := by
  unfold rawStep at h
  cases hkind : token.kind with
  | newline =>
      rw [hkind] at h
      obtain ⟨taken, hadvance⟩ := discard_eq_ok_iff.mp h
      exact .inl (advance_rawBase hadvance)
  | indent =>
      rw [hkind] at h
      obtain ⟨block, hblock⟩ := discard_eq_ok_iff.mp h
      exact hdeeper hblock
  | _ =>
      rw [hkind] at h
      obtain ⟨taken, middle, hadvance, hrest⟩ := bind_eq_ok h
      obtain ⟨node, hnode⟩ := discard_eq_ok_iff.mp hrest
      cases hnode
      have hbase := advance_rawBase hadvance
      exact .inl hbase

theorem Heads.keepsBase {step : Token → Parse Unit} {head : Progress}
    (hstep : ∀ {token : Token} {start after : Progress},
      step token start = .ok () after → KeepsBase start after)
    (h : Heads template step start head) : KeepsBase start head := by
  induction h with
  | start => exact .inl rfl
  | next _ look _ run ih =>
      have hlooked : KeepsBase _ _ := .inl (peek_rawBase look)
      exact ih.trans (hlooked.trans (hstep run))

/-- The loop over raw lines closes the bodies that it opens. -/
theorem rawLinesWith_keepsBase
    (hdeeper : ∀ {start after : Progress} {block : Block BlockId Draft},
      deeper start = .ok block after → KeepsBase start after)
    {fuel : Nat} (h : rawLinesWith template deeper indent fuel start = .ok nodes after) :
    KeepsBase start after := by
  obtain ⟨head, token, hheads, hlook, -⟩ := rawLinesWith_heads fuel h
  have hlooked : KeepsBase head after := .inl (peek_rawBase hlook)
  exact (hheads.keepsBase (rawStep_keepsBase hdeeper)).trans hlooked

/-- A raw body is closed where the body that was open when it began is open again, or none is. -/
theorem rawBlockWith_keepsBase (fuel : Nat) : ∀ {start after : Progress}
    {block : Block BlockId Draft}, rawBlockWith template fuel start = .ok block after →
      KeepsBase start after := by
  induction fuel with
  | zero => exact fun hrun => nomatch hrun
  | succ fuel ih =>
      intro start after block hrun
      obtain ⟨token, entered, hexpect, hrest⟩ := bind_eq_ok hrun
      obtain ⟨_, _, ⟨⟩, hrest⟩ := bind_eq_ok hrest
      obtain ⟨_, _, ⟨⟩, hrest⟩ := bind_eq_ok hrest
      obtain ⟨_, _, ⟨⟩, hrest⟩ := bind_eq_ok hrest
      obtain ⟨nodes, looked, hloop, hrest⟩ := bind_eq_ok hrest
      obtain ⟨_, unbased, hunbased, hrest⟩ := bind_eq_ok hrest
      obtain ⟨_, last, hlast, hblock⟩ := discard_bind_eq_ok hrest
      cases hblock
      have hentered := expect_rawBase hexpect
      have hlooked : looked.rawBase = some (entered.rawBase.getD (indentWidth token))
          ∨ looked.rawBase = none := rawLinesWith_keepsBase ih hloop
      replace hunbased : (if looked.rawBase = some (indentWidth token)
          then { looked with rawBase := none } else looked) = unbased := by
        cases hunbased
        rfl
      show last.rawBase = start.rawBase ∨ last.rawBase = none
      rw [expect_rawBase hlast, ← hunbased]
      rw [hentered] at hlooked
      split
      · exact .inr rfl
      · next hwidth =>
          rcases hlooked with hsame | hnone
          · cases hbase : start.rawBase with
            | none => exact absurd (by rw [hsame, hbase]; rfl) hwidth
            | some base => exact .inl (by rw [hsame, hbase]; rfl)
          · exact .inr hnone

/-- A raw body is read in raw mode, and markup after it. -/
theorem rawBlock_body (h : rawBlock template start = .ok block after) :
    ∃ token entered last, expect template .indent start.intoRaw = .ok token entered
      ∧ after.lexer = { last with mode := .markup }
      ∧ (entered.lexer.Holding [] → last.Holding [] ∧ Body block.nodes entered.lexer last) := by
  obtain ⟨_, _, ⟨⟩, hrest⟩ := bind_eq_ok h
  obtain ⟨_, _, ⟨⟩, hrest⟩ := bind_eq_ok hrest
  obtain ⟨body, last, hbody, hrest⟩ := bind_eq_ok hrest
  obtain ⟨_, _, ⟨⟩, hrest⟩ := bind_eq_ok hrest
  cases hrest
  obtain ⟨token, entered, hexpect, hreads⟩ := rawBlockWith_body _ hbody
  exact ⟨token, entered, last.lexer, hexpect, rfl, hreads⟩

/-- Behind a raw body none is open if none was before. -/
theorem rawBlock_rawBase (h : rawBlock template start = .ok block after)
    (hbase : start.rawBase = none) : after.rawBase = none := by
  obtain ⟨_, _, ⟨⟩, hrest⟩ := bind_eq_ok h
  obtain ⟨_, _, ⟨⟩, hrest⟩ := bind_eq_ok hrest
  obtain ⟨body, last, hbody, hrest⟩ := bind_eq_ok hrest
  obtain ⟨_, _, ⟨⟩, hrest⟩ := bind_eq_ok hrest
  cases hrest
  exact (rawBlockWith_keepsBase _ hbody).elim (·.trans hbase) id

end Parse

end Stencil
