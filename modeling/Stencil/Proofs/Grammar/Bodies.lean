import Stencil.Proofs.Grammar.Ensures
import Stencil.Proofs.Grammar.Productions

/-! # Bodies — the heads of the loops over indented lines

    An indented body of statements and a raw body are read by two loops that look
    at the next token, stop at an outdent, and otherwise take a step.  `Heads` are
    the states in which such a loop looks at the next token; a loop over raw lines
    that comes to its end stops at one of them (`rawLinesWith_heads`).

    A step stays inside the body, so at every head the stream goes on: the
    outdent that closes the body comes before the end of the stream
    (`InBlock.ne_eos`, `InRawBody.ne_eos`).  That is what keeps the loop over raw
    lines, which takes any token, from going on for ever. -/

namespace Stencil.Parse

open Lexer

variable {α : Type} {template : Template} {statement : Parse Draft}
  {deeper : Parse (Block BlockId Draft)} {start head last : Progress}

/-! ## Loops -/

/-- What the loop over statements does at a token that does not stop it. -/
def blockStep (template : Template) (statement : Parse Draft) (token : Token) : Parse Unit :=
  if token.kind == .newline then discard (advance template) else discard statement

/-- What the loop over raw lines does at a token that does not stop it. -/
def rawStep (template : Template) (deeper : Parse (Block BlockId Draft)) (indent : Nat)
    (token : Token) : Parse Unit :=
  match token.kind with
  | .newline => discard (advance template)
  | .indent => discard deeper
  | _ => do
      let line ← advance template
      discard (newNode line.line
        (.text (String.ofList (List.replicate indent ' ') ++ line.value)))

/-- The states in which a loop that stops at an outdent looks at the next token. -/
inductive Heads (template : Template) (step : Token → Parse Unit) (start : Progress) :
    Progress → Prop where
  | start : Heads template step start start
  | next {head looked after : Progress} {token : Token} (h : Heads template step start head)
      (look : peek template head = .ok token looked) (goesOn : token.kind ≠ .outdent)
      (run : step token looked = .ok () after) : Heads template step start after

theorem Heads.trans {step : Token → Parse Unit} {middle : Progress}
    (h : Heads template step start middle) (hlast : Heads template step middle head) :
    Heads template step start head := by
  induction hlast with
  | start => exact h
  | next _ look goesOn run ih => exact ih.next look goesOn run

/-- A run of the first reader, and one of the reader that goes on. -/
theorem bind_of_ok {β : Type} {reader : Parse α} {next : α → Parse β} {result : α} {value : β}
    {middle after : Progress} (h : reader start = .ok result middle)
    (hnext : next result middle = .ok value after) : (reader >>= next) start = .ok value after := by
  show EStateM.bind reader next start = _
  rw [EStateM.bind, h]
  exact hnext

theorem discard_eq_ok_iff {reader : Parse α} {after : Progress} :
    discard reader start = .ok () after ↔ ∃ result, reader start = .ok result after := by
  have hbind : discard reader = reader >>= fun _ => pure () := by
    rw [← bind_pure (discard reader), discard_bind]
  rw [hbind]
  constructor
  · intro h
    obtain ⟨result, middle, hread, ⟨⟩⟩ := bind_eq_ok h
    exact ⟨result, hread⟩
  · rintro ⟨result, hread⟩
    exact bind_of_ok hread rfl

theorem discard_eq_ok {reader : Parse α} {result : α} {after : Progress}
    (h : reader start = .ok result after) : discard reader start = .ok () after :=
  discard_eq_ok_iff.mpr ⟨result, h⟩

/-- The loop over raw lines stops at one of its heads. -/
theorem rawLinesWith_heads {indent : Nat} (fuel : Nat) :
    ∀ {start : Progress} {nodes : List Draft},
      rawLinesWith template deeper indent fuel start = .ok nodes last →
        ∃ head token, Heads template (rawStep template deeper indent) start head
          ∧ peek template head = .ok token last ∧ token.kind = .outdent := by
  induction fuel with
  | zero => exact fun hrun => nomatch hrun
  | succ fuel ih =>
      intro start nodes hrun
      obtain ⟨token, looked, hlook, hrest⟩ := bind_eq_ok hrun
      by_cases hstop : token.kind = .outdent
      · rw [hstop] at hrest
        cases hrest
        exact ⟨start, token, .start, hlook, hstop⟩
      · -- whatever is read here, it is what one step of the loop does
        have hstep : ∃ after nodes', rawStep template deeper indent token looked = .ok () after
            ∧ rawLinesWith template deeper indent fuel after = .ok nodes' last := by
          unfold rawStep
          cases hkind : token.kind with
          | outdent => exact absurd hkind hstop
          | newline =>
              rw [hkind] at hrest
              obtain ⟨⟨⟩, after, hdrop, hloop⟩ := bind_eq_ok hrest
              exact ⟨after, nodes, hdrop, hloop⟩
          | indent =>
              rw [hkind] at hrest
              obtain ⟨block, after, hblock, hmore⟩ := bind_eq_ok hrest
              obtain ⟨others, final, hloop, hpure⟩ := bind_eq_ok hmore
              cases hpure
              exact ⟨after, others, discard_eq_ok hblock, hloop⟩
          | _ =>
              rw [hkind] at hrest
              obtain ⟨line, taken, hline, hmore⟩ := bind_eq_ok hrest
              obtain ⟨node, after, hnode, hmore⟩ := bind_eq_ok hmore
              obtain ⟨others, final, hloop, hpure⟩ := bind_eq_ok hmore
              cases hpure
              exact ⟨after, others, bind_of_ok hline (discard_eq_ok hnode), hloop⟩
        obtain ⟨after, nodes', hrun', hloop⟩ := hstep
        obtain ⟨head, last', hheads, hhead, houtdent⟩ := ih hloop
        exact ⟨head, last', (Heads.start.next hlook hstop hrun').trans hheads, hhead, houtdent⟩

/-! ## Inside a body -/

/-- The states in which the loop over the statements of an indented body looks at the next token,
    when the body is read from `start` on. -/
def InBlock (template : Template) (start head : Progress) : Prop :=
  ∃ opening entered fuel, expect template .indent start = .ok opening entered
    ∧ Heads template (blockStep template (statementWith template fuel)) entered head

/-- The states in which the loop over the lines of a raw body looks at the next token, when the body
    is read from `start` on. -/
def InRawBody (template : Template) (start head : Progress) : Prop :=
  ∃ opening entered fuel, expect template .indent start = .ok opening entered
    ∧ Heads template
        (rawStep template (rawBlockWith template fuel)
          (indentWidth opening - entered.rawBase.getD (indentWidth opening)))
        { entered with rawBase := some (entered.rawBase.getD (indentWidth opening)) } head

variable {depth bound : Nat} {deferred shown : List Token}

/-- A look shows the next token. -/
theorem look_stands {token : Token} (h : Stands depth bound deferred shown start.lexer)
    (hlook : peek template start = .ok token last) :
    Stands depth bound deferred [token] last.lexer := by
  have hends : Ends template ⟨True, start.lexer⟩ (Stands depth bound deferred shown)
      (peek template)
      fun token => Stands depth bound deferred [token] := by
    rw [← bind_pure (peek template)]
    exact ends_peek fun token => ends_pure fun _ => id
  exact hends.of_ok .start h hlook

/-- Taking an indent goes one block in; it is never a token that was put in. -/
theorem enter_stands {opening : Token} (h : Stands depth bound deferred shown start.lexer)
    (hexpect : expect template .indent start = .ok opening last) :
    Stands (depth + 1) (bound - 1) [] [] last.lexer := by
  have hends : Ends template ⟨True, start.lexer⟩ (Stands depth bound deferred shown)
      (expect template .indent) fun _ => Stands (depth + 1) (bound - 1) [] [] := by
    rw [← bind_pure (expect template .indent)]
    rcases deferred with - | ⟨first, deferred⟩
    · exact ends_expect .indent nofun fun token => ends_pure fun _ => id
    · refine .of_pre fun lexer hlexer => ends_expect_deferred fun hkind => ?_
      have hkeep := hlexer.keep first List.mem_cons_self
      rw [hkind] at hkeep
      exact nomatch hkeep
  exact hends.of_ok .start h hexpect

/-- What a step keeps, all heads have. -/
theorem Heads.stands {step : Token → Parse Unit}
    (hstep : ∀ state token, token.kind ≠ .outdent →
      Ends template ⟨False, state⟩ (Stands depth bound [] [token]) (step token)
        fun _ => Stands depth bound [] [])
    (h : Heads template step start head) (hstart : Stands depth bound [] [] start.lexer) :
    Stands depth bound [] [] head.lexer := by
  induction h with
  | start => exact hstart
  | next _ look goesOn run ih =>
      exact (hstep _ _ goesOn).of_ok .start (look_stands ih look) run

theorem blockStep_ends (fuel : Nat) (state : Lexer) (token : Token) :
    Ends template ⟨False, state⟩ (Stands depth bound [] [token])
      (blockStep template (statementWith template fuel) token)
      fun _ => Stands depth bound [] [] := by
  rw [← bind_pure (blockStep template (statementWith template fuel) token)]
  unfold blockStep
  split
  · next hbreak =>
      refine ends_drop (congrArg TokenKind.keepsLevel (beq_iff_eq.mp hbreak)) (ends_pure ?_)
      exact fun _ hstands => hstands.mono (Nat.sub_le _ _)
  · rw [discard_bind]
    have hstatement : Statement template ⟨False, state⟩ bound (statementWith template fuel) :=
      (statementWith_ends fuel).1 bound False.elim
    refine (hstatement depth bound (Nat.le_refl _)).forget.bind fun node => ends_pure ?_
    exact fun _ hstands => hstands.mono (Nat.sub_le _ _)

theorem rawStep_ends (fuel : Nat) (state : Lexer) {indent : Nat} {token : Token}
    (hne : token.kind ≠ .outdent) :
    Ends template ⟨False, state⟩ (Stands (depth + 1) bound [] [token])
      (rawStep template (rawBlockWith template fuel) indent token)
      fun _ => Stands (depth + 1) bound [] [] := by
  unfold rawStep
  split
  · next hbreak =>
      rw [← bind_pure (discard (advance template))]
      refine ends_drop (congrArg TokenKind.keepsLevel hbreak) (ends_pure ?_)
      exact fun _ hstands => hstands.mono (Nat.sub_le _ _)
  · rw [← bind_pure (discard _), discard_bind]
    refine (rawBlockWith_ends fuel False.elim).bind fun block => ends_pure ?_
    exact fun _ hstands => hstands.mono (Nat.sub_le _ _)
  · next hindent _ =>
      -- any other token is taken as a line, and it is not the end of the stream
      refine .of_pre fun lexer hlexer => ?_
      have heos : token.kind ≠ .eos := fun heos => nomatch hlexer.eos heos
      refine ends_advance (.keep (by assumption) hne) heos ?_
      rw [← bind_pure (discard _), discard_bind]
      refine calm_newNode.andThen fun node => ends_pure ?_
      exact fun _ hstands => hstands.mono (Nat.sub_le _ _)

/-- **Inside an indented body the stream does not end**: its outdent comes first. -/
theorem InBlock.ne_eos (h : InBlock template start head) (hsound : start.lexer.Sound)
    {token : Token} (hlook : peek template head = .ok token last) : token.kind ≠ .eos := by
  obtain ⟨opening, entered, fuel, hexpect, hheads⟩ := h
  obtain ⟨depth, hstands⟩ := hsound.stands
  have hentered := enter_stands hstands hexpect
  have hhead := hheads.stands (fun state token _ => blockStep_ends fuel state token) hentered
  intro heos
  exact nomatch (look_stands hhead hlook).eos heos

/-- **Inside a raw body the stream does not end**: its outdent comes first. -/
theorem InRawBody.ne_eos (h : InRawBody template start head) (hsound : start.lexer.Sound)
    {token : Token} (hlook : peek template head = .ok token last) : token.kind ≠ .eos := by
  obtain ⟨opening, entered, fuel, hexpect, hheads⟩ := h
  obtain ⟨depth, hstands⟩ := hsound.stands
  have hentered := enter_stands hstands hexpect
  have hhead := hheads.stands (fun state token hne => rawStep_ends fuel state hne) hentered
  intro heos
  exact nomatch (look_stands hhead hlook).eos heos

end Stencil.Parse
