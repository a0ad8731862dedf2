import Stencil.Grammar.Statement
import Stencil.Proofs.Lexer.Ahead

/-! # What a reader gives — tokens ahead, before and after

    A reader of a part of a template takes tokens off the stream and gives a
    result.  `Gives reader tokens good` says that it does so from any state with
    those tokens ahead, that the result and the tokens that are left are good,
    and that nothing else changes but identities and the log (`Unmoved`).

    There is one rule for each action on the stream, stated for the action with
    what follows it, so that a production is read from its first line to its
    last; `Gives.bind` joins a production with one inside it. -/

namespace Stencil

/-- Nothing but the tokens, the identities and the log has changed. -/
structure Progress.Unmoved (before after : Progress) : Prop where
  rawBase : after.rawBase = before.rawBase
  layout : after.layout = before.layout
  registry : after.assembly.registry = before.assembly.registry
  mixins : after.assembly.mixins = before.assembly.mixins
  current : after.assembly.store.current = before.assembly.store.current

theorem Progress.Unmoved.refl (progress : Progress) : progress.Unmoved progress :=
  ⟨rfl, rfl, rfl, rfl, rfl⟩

theorem Progress.Unmoved.trans {first middle last : Progress} (h : first.Unmoved middle)
    (hlast : middle.Unmoved last) : first.Unmoved last where
  rawBase := hlast.rawBase.trans h.rawBase
  layout := hlast.layout.trans h.layout
  registry := hlast.registry.trans h.registry
  mixins := hlast.mixins.trans h.mixins
  current := hlast.current.trans h.current

namespace Parse

variable {α β : Type} {template : Template} {token : Token} {tokens rest : List Token}

/-- A step of a reader between two states: tokens at the front are taken, and nothing else has
    moved. -/
structure Taken (before after : Progress) (tokens rest : List Token) : Prop where
  ahead : after.lexer.Ahead rest
  suffix : rest <:+ tokens
  unmoved : before.Unmoved after

theorem Taken.refl {progress : Progress} (h : progress.lexer.Ahead tokens) :
    Taken progress progress tokens tokens :=
  ⟨h, List.suffix_rfl, .refl progress⟩

theorem Taken.trans {first middle last : Progress} {left : List Token}
    (h : Taken first middle tokens rest) (hlast : Taken middle last rest left) :
    Taken first last tokens left :=
  ⟨hlast.ahead, hlast.suffix.trans h.suffix, h.unmoved.trans hlast.unmoved⟩

/-- From any state with these tokens ahead a reader gives a result; the result and the tokens that
    are left are good. -/
def Gives (reader : Parse α) (tokens : List Token) (good : α → List Token → Prop) : Prop :=
  ∀ progress : Progress, progress.lexer.Ahead tokens →
    ∃ result after rest, reader progress = .ok result after
      ∧ Taken progress after tokens rest ∧ good result rest

theorem gives_pure {result : α} {good : α → List Token → Prop} (h : good result tokens) :
    Gives (pure result) tokens good := fun progress hahead =>
  ⟨result, progress, tokens, rfl, .refl hahead, h⟩

/-- A reader and one that goes on with its result. -/
theorem Gives.bind {reader : Parse α} {next : α → Parse β} {m : α → List Token → Prop}
    {good : β → List Token → Prop} (h : Gives reader tokens m)
    (hnext : ∀ result rest, m result rest → Gives (next result) rest good) :
    Gives (reader >>= next) tokens good := by
  intro progress hahead
  obtain ⟨result, after, rest, hrun, htaken, hm⟩ := h progress hahead
  obtain ⟨last, final, left, hlast, hfinal, hgood⟩ := hnext result rest hm after htaken.ahead
  refine ⟨last, final, left, ?_, htaken.trans hfinal, hgood⟩
  show EStateM.bind reader next progress = _
  rw [EStateM.bind, hrun]
  exact hlast

theorem Gives.imp {reader : Parse α} {m good : α → List Token → Prop}
    (h : Gives reader tokens m) (himp : ∀ result rest, m result rest → good result rest) :
    Gives reader tokens good := by
  intro progress hahead
  obtain ⟨result, after, rest, hrun, htaken, hm⟩ := h progress hahead
  exact ⟨result, after, rest, hrun, htaken, himp result rest hm⟩

/-- The tokens that are left are the last ones of those that were ahead. -/
theorem Gives.suffix {reader : Parse α} {good : α → List Token → Prop}
    (h : Gives reader tokens good) :
    Gives reader tokens fun result rest => good result rest ∧ rest <:+ tokens := by
  intro progress hahead
  obtain ⟨result, after, rest, hrun, htaken, hgood⟩ := h progress hahead
  exact ⟨result, after, rest, hrun, htaken, hgood, htaken.suffix⟩

/-! ## Tokens -/

/-- An action on the lexer that succeeds. -/
theorem gives_onLexer {action : Lexer → Lexer.Outcome α} {good : α → List Token → Prop}
    (h : ∀ lexer : Lexer, lexer.Ahead tokens →
      ∃ result after rest, action lexer = (.ok result, after) ∧ after.Ahead rest
        ∧ rest <:+ tokens ∧ good result rest) :
    Gives (onLexer template action) tokens good := by
  intro progress hahead
  obtain ⟨result, after, rest, hrun, hrest, hsuffix, hgood⟩ := h progress.lexer hahead
  have hreader : onLexer template action progress
      = .ok result { progress with
          lexer := after,
          assembly := { progress.assembly with
            log := progress.assembly.log ++ lockRecords progress.lexer after } } := by
    unfold onLexer
    rw [hrun]
  exact ⟨result, _, rest, hreader, ⟨hrest, hsuffix, rfl, rfl, rfl, rfl, rfl⟩, hgood⟩

theorem gives_peekAt {offset : Nat} {next : Token → Parse β} {good : β → List Token → Prop}
    (htoken : tokens[offset]? = some token) (h : Gives (next token) tokens good) :
    Gives (peekAt template offset >>= next) tokens good := by
  refine Gives.bind (m := fun result rest => result = token ∧ rest = tokens)
    (gives_onLexer fun lexer hahead => ?_) ?_
  · obtain ⟨after, hpeek, hafter⟩ := hahead.peekAt htoken
    exact ⟨token, after, tokens, hpeek, hafter, List.suffix_rfl, rfl, rfl⟩
  · rintro result rest ⟨rfl, rfl⟩
    exact h

theorem gives_peek {next : Token → Parse β} {good : β → List Token → Prop}
    (h : Gives (next token) (token :: tokens) good) :
    Gives (peek template >>= next) (token :: tokens) good :=
  gives_peekAt rfl h

theorem gives_advance {next : Token → Parse β} {good : β → List Token → Prop}
    (h : Gives (next token) tokens good) :
    Gives (advance template >>= next) (token :: tokens) good := by
  refine Gives.bind (m := fun result rest => result = token ∧ rest = tokens)
    (gives_onLexer fun lexer hahead => ?_) ?_
  · obtain ⟨after, hadvance, hafter⟩ := hahead.advance
    exact ⟨token, after, tokens, hadvance, hafter, List.suffix_cons _ _, rfl, rfl⟩
  · rintro result rest ⟨rfl, rfl⟩
    exact h

theorem Gives.discard {reader : Parse α} {m : α → List Token → Prop}
    (h : Gives reader tokens m) :
    Gives (discard reader) tokens fun _ rest => ∃ result, m result rest := by
  intro progress hahead
  obtain ⟨result, after, rest, hrun, htaken, hm⟩ := h progress hahead
  refine ⟨(), after, rest, ?_, htaken, ⟨result, hm⟩⟩
  show EStateM.map (fun _ => ()) reader progress = _
  rw [EStateM.map, hrun]

theorem gives_isAt {kind : TokenKind} {next : Bool → Parse β} {good : β → List Token → Prop}
    (h : Gives (next (token.kind == kind)) (token :: tokens) good) :
    Gives (isAt template kind >>= next) (token :: tokens) good := by
  refine Gives.bind (m := fun result rest =>
    result = (token.kind == kind) ∧ rest = token :: tokens) (gives_peek (gives_pure ⟨rfl, rfl⟩)) ?_
  rintro result rest ⟨rfl, rfl⟩
  exact h

theorem gives_expect {kind : TokenKind} {next : Token → Parse β} {good : β → List Token → Prop}
    (hkind : token.kind = kind) (h : Gives (next token) tokens good) :
    Gives (expect template kind >>= next) (token :: tokens) good := by
  refine Gives.bind (m := fun result rest => result = token ∧ rest = tokens)
    (gives_peek ?_) ?_
  · rw [if_pos (beq_iff_eq.mpr hkind), ← bind_pure (advance template)]
    exact gives_advance (gives_pure ⟨rfl, rfl⟩)
  · rintro result rest ⟨rfl, rfl⟩
    exact h

/-- Dropping a token that a reader gives. -/
theorem gives_discard {reader : Parse Token} {next : Unit → Parse β}
    {good : β → List Token → Prop}
    (hreader : Gives (reader >>= pure) (token :: tokens) fun _ rest => rest = tokens)
    (h : Gives (next ()) tokens good) :
    Gives (Functor.discard reader >>= next) (token :: tokens) good := by
  rw [bind_pure] at hreader
  refine hreader.discard.bind ?_
  rintro - rest ⟨-, rfl⟩
  exact h

theorem gives_drop {next : Unit → Parse β} {good : β → List Token → Prop}
    (h : Gives (next ()) tokens good) :
    Gives (discard (advance template) >>= next) (token :: tokens) good :=
  gives_discard (gives_advance (gives_pure rfl)) h

theorem gives_dropExpected {kind : TokenKind} {next : Unit → Parse β}
    {good : β → List Token → Prop} (hkind : token.kind = kind) (h : Gives (next ()) tokens good) :
    Gives (discard (expect template kind) >>= next) (token :: tokens) good :=
  gives_discard (gives_expect hkind (gives_pure rfl)) h

/-- The bound on the number of steps exceeds the number of tokens ahead. -/
theorem gives_tokenBound {next : Nat → Parse β} {good : β → List Token → Prop}
    (h : ∀ bound, Lexer.countOpen tokens < bound → Gives (next bound) tokens good) :
    Gives (tokenBound >>= next) tokens good := by
  intro progress hahead
  exact h _ (Nat.lt_succ_of_le hahead.countOpen_le) progress hahead

/-! ## Nodes -/

theorem gives_newBlock {line : Int} {nodes : List Draft} {props : BlockProps}
    {good : Block BlockId Draft → List Token → Prop}
    (h : ∀ id, good { id, line, props, nodes } tokens) :
    Gives (newBlock line nodes props) tokens good := by
  intro progress hahead
  exact ⟨_, _, tokens, rfl, ⟨hahead, List.suffix_rfl, rfl, rfl, rfl, rfl, rfl⟩,
    h progress.assembly.store.next⟩

theorem gives_newNode {line : Int} {kind : Kind BlockId} {blocks : List (Block BlockId Draft)}
    {code : Option Draft} {good : Draft → List Token → Prop}
    (h : ∀ id, good (.make (some id) line kind (code.toList ++ blocks.map Node.ofBlock)) tokens) :
    Gives (newNode line kind blocks code) tokens good := by
  intro progress hahead
  exact ⟨_, _, tokens, rfl, ⟨hahead, List.suffix_rfl, rfl, rfl, rfl, rfl, rfl⟩,
    h progress.assembly.store.next⟩

end Parse

end Stencil
