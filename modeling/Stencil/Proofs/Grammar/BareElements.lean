import Stencil.Proofs.Grammar.Shorthands

/-! # Bare elements — statements that start with a shorthand

    Where a statement starts with the shorthand, the reader takes it, puts the
    element in front of it and starts again.  When both are taken, the state is
    the one in which the reader of the element is that has the name written out
    (`shorthandStatement_bare`, `tagStatement_full`).

    `statementUpTo` reads statements, but not one that starts with the shorthand:
    there it gives up.  So a probe with it tells whether the place is one where a
    statement starts, and with this probe every statement meets at the place, and
    every template does (`meets_document`). -/

namespace Stencil

open Lexer

namespace Lexer

variable {lexer : Lexer} {token : Token} {place : BareShorthand}

theorem peekAt_deferred {deferred : List Token} (h : lexer.deferred = token :: deferred) :
    lexer.peekAt 0 = (.ok token, lexer) := by
  have hwaiting : 0 + 1 - (lexer.deferred.length + lexer.stash.length) = 0 := by
    rw [h, List.length_cons]
    omega
  unfold peekAt
  rw [hwaiting, stock]
  dsimp only
  rw [h]
  rfl

theorem peekAt_stash {stash : List Token} (hdeferred : lexer.deferred = [])
    (h : lexer.stash = token :: stash) : lexer.peekAt 0 = (.ok token, lexer) := by
  have hwaiting : 0 + 1 - (lexer.deferred.length + lexer.stash.length) = 0 := by
    rw [h, List.length_cons]
    omega
  unfold peekAt
  rw [hwaiting, stock]
  dsimp only
  rw [hdeferred, h]
  rfl

/-- A step at the place. -/
theorem next_place (hpending : lexer.pending = []) (hmode : lexer.mode = .markup)
    (hinput : lexer.input = place.text) :
    lexer.next = (.ok (place.token lexer.line), { lexer with input := place.rest }) := by
  have hbreak : place.sign ≠ '\n' := place.forall_sign (P := (· ≠ '\n')) (by decide) (by decide)
  have hparen : (place.sign == '(') = false :=
    place.forall_sign (P := fun c => (c == '(') = false) (by decide) (by decide)
  have hblank : afterBlankLine? lexer.input = none := by
    rw [hinput]
    exact afterBlankLine?.eq_2 _ fun _ heq => hbreak (List.cons.inj heq).1
  have hform : lexer.scanLine = lexer.readForm := by
    rw [scanLine_cons hinput hbreak, hmode]
    dsimp only
    rw [hparen, if_neg Bool.false_ne_true]
  rw [next_eq_scanLine hpending hblank, hform, readForm, hinput, place.first?_bare]
  simp only [Bool.false_eq_true, if_false, List.append_nil]
  rfl

/-- A lexer between statements, with nothing that waits. -/
structure Idle (lexer : Lexer) : Prop where
  mode : lexer.mode = .markup
  deferred : lexer.deferred = []
  stash : lexer.stash = []
  pending : lexer.pending = []

theorem peekAt_token {offset : Nat} {after : Lexer}
    (h : lexer.peekAt offset = (.ok token, after)) :
    token = (after.deferred ++ after.stash).getD offset (after.token .eos) := by
  unfold peekAt at h
  split at h
  · cases h
  · cases h
    rfl

/-- Where a statement starts with the shorthand, the other lexer has the element. -/
theorem Beside.of_opens {other : Lexer} (h : Beside place lexer other)
    (hopens : Opens place lexer) :
    ∃ core, Idle core ∧ lexer.peekAt 0 = (.ok (place.token core.line), core.seen place)
      ∧ other.peekAt 0 = (.ok ⟨core.line, .tag "div" false⟩, core.seenFull place) := by
  unfold Opens at hopens
  split at hopens
  · next token after hpeek =>
      have hempty : ∀ core : Lexer, after = core.seen place →
          core.deferred = [] ∧ core.stash = [] := by
        rintro core rfl
        refine ⟨hopens.deferred, ?_⟩
        have hlength := congrArg List.length hopens.stash
        rw [Lexer.seen, List.length_append] at hlength
        exact List.length_eq_zero_iff.mp (Nat.succ.inj hlength)
      rcases h.peekAt 0 with halong | ⟨core, pending, last, bare_eq, full_eq⟩
      · exfalso
        cases halong with
        | inStep bare_eq full_eq beside =>
            cases hpeek.symm.trans bare_eq
            cases beside with
            | ahead core =>
                have hlength := congrArg List.length hopens.input
                simp [withTail, BareShorthand.text] at hlength
                omega
            | seen core pending =>
                obtain ⟨hdeferred, hstash⟩ := hempty core rfl
                have hbare := peekAt_token bare_eq
                have hfull := peekAt_token full_eq
                simp [Lexer.seen, Lexer.seenFull, hdeferred, hstash] at hbare hfull
                have htoken := token_isShorthand place core.line
                rw [← hbare, hfull] at htoken
                have hkind : TokenKind.tag ≠ .idName ∧ TokenKind.tag ≠ .className := by decide
                exact absurd htoken (Token.not_isShorthand hkind.1 hkind.2)
        | stopped bare_eq => cases hpeek.symm.trans bare_eq
        | past leaves =>
            rw [hpeek] at leaves
            exact (leaves.past token rfl).not_faces hopens
      · cases hpeek.symm.trans bare_eq
        obtain ⟨hdeferred, hstash⟩ := hempty core rfl
        exact ⟨core, ⟨hopens.mode, hdeferred, hstash, pending⟩, bare_eq, full_eq⟩
  · exact hopens.elim

end Lexer

namespace Parse

variable {α : Type} {place : BareShorthand} {template : Template} {composer : Composer}

/-! ## The element behind the shorthand -/

section Door

variable {progress : Progress} {line : Int} {after : Lexer} {token : Token}

/-- An action that keeps the indentation style tells nothing. -/
theorem onLexer_of_lock (action : Lexer → Outcome α) {result : α}
    (h : action progress.lexer = (.ok result, after)) (hlock : after.lock = progress.lexer.lock) :
    onLexer template action progress = .ok result { progress with lexer := after } := by
  have hnone : lockRecords progress.lexer after = [] := by
    unfold lockRecords
    rw [hlock]
    cases progress.lexer.lock <;> rfl
  rw [onLexer_ok h, reached, hnone, List.append_nil]

theorem expect_of_ok {kind : TokenKind} {looked taken : Progress}
    (hpeek : peek template progress = .ok token looked) (hkind : token.kind = kind)
    (hadvance : advance template looked = .ok token taken) :
    expect template kind progress = .ok token taken := by
  rw [expect, bind_eq_of_ok hpeek, if_pos (beq_iff_eq.mpr hkind)]
  exact hadvance

/-- Runs with one outcome go on alike. -/
theorem bind_of_run_eq {σ β : Type} {first second : EStateM Fault σ α} {state other : σ}
    (h : first state = second other) (next : α → EStateM Fault σ β) :
    (first >>= next) state = (second >>= next) other := by
  show EStateM.bind first next state = EStateM.bind second next other
  rw [EStateM.bind, EStateM.bind, h]

/-- The class shorthands up to the shorthand. -/
def bareClasses (place : BareShorthand) : List String :=
  if place.sign = '#' then [] else [String.ofList place.name]

/-- The element with the shorthand as its first attribute. -/
def bareElement (place : BareShorthand) : Element :=
  let element : Element := { name := "div", selfClosing := false }
  let name := String.ofList place.name
  if place.sign = '#' then element.setAttribute "id" { value := .text (singleQuoted name) }
  else
    element.setAttribute "class"
      { value := .text (singleQuoted (String.intercalate " " [name])) }

/-- The shorthand is the first thing behind the name of the element. -/
theorem readAttributes_bare {looked taken : Progress}
    (hpeek : peek template progress = .ok (place.token line) looked)
    (hadvance : advance template looked = .ok (place.token line) taken) :
    readAttributes template { name := "div", selfClosing := false } progress
      = readAttributesWith template progress.lexer.potential (bareClasses place)
        (bareElement place) taken := by
  have hdrop : ∀ next : Parse Element,
      (discard (advance template) >>= fun _ => next) looked = next taken := by
    intro next
    rw [discard_bind]
    exact bind_eq_of_ok hadvance
  show readAttributesWith template (progress.lexer.potential + 1) [] _ progress = _
  rw [readAttributesWith, bind_eq_of_ok hpeek]
  by_cases hsign : place.sign = '#'
  · have hkind : (place.token line).kind = .idName := if_pos hsign
    simp only [hkind, bareClasses, bareElement, if_pos hsign]
    exact hdrop _
  · have hkind : (place.token line).kind = .className := if_neg hsign
    simp only [hkind, bareClasses, bareElement, if_neg hsign]
    exact hdrop _

/-- Reads an element from behind its first attribute on. -/
def elementFrom (template : Template) (statement : Parse Draft) (fuel : Nat) (line : Int)
    (body : Block BlockId Draft) (classes : List String) (element : Element) : Parse Draft := do
  let element ← readAttributesWith template fuel classes element
  let opened ← afterAttributes template statement body element
  newNode line (.tag opened.element false) [opened.body] opened.code

/-- An element whose name stands in front of the shorthand. -/
theorem tagStatement_bare {inner : Parse Draft} {entered begun looked taken : Progress}
    {body : Block BlockId Draft}
    (hexpect : expect template .tag progress = .ok ⟨line, .tag "div" false⟩ entered)
    (hbody : newBlock 0 [] {} entered = .ok body begun)
    (hpeek : peek template begun = .ok (place.token line) looked)
    (hadvance : advance template looked = .ok (place.token line) taken) :
    tagStatement template inner progress
      = elementFrom template inner begun.lexer.potential line body (bareClasses place)
        (bareElement place) taken := by
  have hopened : readElement template inner { name := "div", selfClosing := false } entered
      = (readAttributesWith template begun.lexer.potential (bareClasses place)
          (bareElement place) >>= afterAttributes template inner body) taken :=
    (bind_eq_of_ok hbody).trans (bind_of_run_eq (readAttributes_bare hpeek hadvance) _)
  rw [tagStatement, bind_eq_of_ok hexpect, elementFrom, ← bind_assoc]
  exact bind_of_run_eq hopened _

/-- The state in which a body has been begun. -/
def begun (progress : Progress) (lexer : Lexer) : Progress :=
  { progress with
    lexer
    assembly := { progress.assembly with store := progress.assembly.store.taken } }

/-- The body of an element whose name has been read. -/
def emptyBody (progress : Progress) : Block BlockId Draft :=
  { id := progress.assembly.store.next, line := 0, nodes := [] }

theorem peek_ok (h : progress.lexer.peekAt 0 = (.ok token, after)) :
    peek template progress = .ok token (reached progress after) := by
  unfold peek peekAt
  exact onLexer_ok h

theorem peek_of_deferred {deferred : List Token} (h : progress.lexer.deferred = token :: deferred) :
    peek template progress = .ok token progress :=
  onLexer_of_lock (·.peekAt 0) (peekAt_deferred h) rfl

theorem advance_of_deferred {deferred : List Token}
    (h : progress.lexer.deferred = token :: deferred) :
    advance template progress
      = .ok token { progress with lexer := { progress.lexer with deferred } } :=
  onLexer_of_lock Lexer.advance (advance_deferred h) rfl

theorem peek_of_stash {stash : List Token} (hdeferred : progress.lexer.deferred = [])
    (h : progress.lexer.stash = token :: stash) : peek template progress = .ok token progress :=
  onLexer_of_lock (·.peekAt 0) (peekAt_stash hdeferred h) rfl

theorem advance_of_stash {stash : List Token} (hdeferred : progress.lexer.deferred = [])
    (h : progress.lexer.stash = token :: stash) :
    advance template progress
      = .ok token { progress with lexer := { progress.lexer with stash } } :=
  onLexer_of_lock Lexer.advance (advance_stash hdeferred h) rfl

/-- The shorthand is taken when it is next. -/
theorem advance_bare {lexer : Lexer} (hidle : Idle lexer)
    (hlexer : progress.lexer = lexer.seen place) :
    advance template progress
      = .ok (place.token lexer.line)
        { progress with lexer := { lexer with input := place.rest } } := by
  obtain ⟨input, line, mode, colons, levels, lock, deferred, stash, pending⟩ := lexer
  obtain ⟨rfl, rfl, rfl, rfl⟩ := hidle
  exact onLexer_of_lock Lexer.advance (by rw [hlexer]; rfl) (by rw [hlexer]; rfl)

/-- The reader of the shorthand comes to the element with the shorthand as its first attribute. -/
theorem shorthandStatement_bare {lexer : Lexer} (hidle : Idle lexer)
    (hlexer : progress.lexer = lexer.seen place) (depth : Nat) :
    shorthandStatement template (statementWith template (depth + 1)) progress
      = elementFrom template (statementWith template depth)
        (Lexer.potential
          { lexer with input := place.rest, deferred := [place.token lexer.line] })
        lexer.line (emptyBody progress) (bareClasses place) (bareElement place)
        (begun progress { lexer with input := place.rest }) := by
  have htaken : advance template progress = .ok (place.token lexer.line)
      { progress with lexer := { lexer with input := place.rest } } := advance_bare hidle hlexer
  obtain ⟨input, line, mode, colons, levels, lock, deferred, stash, pending⟩ := lexer
  obtain ⟨rfl, rfl, rfl, rfl⟩ := hidle
  let element : Token := ⟨line, .tag "div" false⟩
  let shorthand : Token := place.token line
  let waiting (deferred : List Token) : Progress :=
    { progress with lexer := { input := place.rest, line, colons, levels, lock, deferred } }
  have hpeek : peek template (waiting [element, shorthand])
      = .ok element (waiting [element, shorthand]) := peek_of_deferred rfl
  have hexpect : expect template .tag (waiting [element, shorthand])
      = .ok element (waiting [shorthand]) := expect_of_ok hpeek rfl (advance_of_deferred rfl)
  rw [shorthandStatement, bind_eq_of_ok htaken]
  show statementStep template (statementWith template depth) (waiting [element, shorthand]) = _
  rw [statementStep, bind_eq_of_ok hpeek]
  exact tagStatement_bare hexpect rfl (peek_of_deferred rfl) (advance_of_deferred rfl)

/-- The reader of the element comes to it, too. -/
theorem tagStatement_full {lexer : Lexer} (hidle : Idle lexer) (inner : Parse Draft) :
    tagStatement template inner { progress with lexer := lexer.seenFull place }
      = elementFrom template inner (Lexer.potential { lexer with input := place.text }) lexer.line
        (emptyBody progress) (bareClasses place) (bareElement place)
        (begun progress { lexer with input := place.rest }) := by
  obtain ⟨input, line, mode, colons, levels, lock, deferred, stash, pending⟩ := lexer
  obtain ⟨rfl, rfl, rfl, rfl⟩ := hidle
  let element : Token := ⟨line, .tag "div" false⟩
  let shorthand : Token := place.token line
  let front (input : List Char) (stash : List Token) : Lexer :=
    { input, line, colons, levels, lock, stash }
  have hexpect : expect template .tag { progress with lexer := front place.text [element] }
      = .ok element { progress with lexer := front place.text [] } :=
    expect_of_ok (peek_of_stash rfl rfl) rfl (advance_of_stash rfl rfl)
  have hlook : (front place.text []).peekAt 0
      = (.ok shorthand, front place.rest [shorthand]) := by
    have hnext : (front place.text []).next = (.ok shorthand, front place.rest []) :=
      next_place rfl rfl rfl
    have hstock : (front place.text []).stock 1 = (.ok (), front place.rest [shorthand]) :=
      stock_succ_of_ok 0 hnext
    have hwaiting : 0 + 1 - ((front place.text []).deferred.length
        + (front place.text []).stash.length) = 1 := rfl
    unfold Lexer.peekAt
    rw [hwaiting, hstock]
    rfl
  have hpeek : peek template (begun progress (front place.text []))
      = .ok shorthand (begun progress (front place.rest [shorthand])) :=
    onLexer_of_lock (·.peekAt 0) hlook rfl
  exact tagStatement_bare hexpect rfl hpeek (advance_of_stash rfl rfl)

end Door

/-! ## Statements at the place -/

/-- Reads a statement, but gives up where one starts with the shorthand at the place. -/
def statementUpTo (place : BareShorthand) (template : Template) : Nat → Parse Draft
  | 0 => throw ⟨.exhausted, {}⟩
  | fuel + 1 => do
      if Opens place (← get).lexer then throw ⟨.exhausted, {}⟩
      else statementStep template (statementUpTo place template fuel)

/-- Reads the statements of a whole template up to one that starts with the shorthand. -/
def documentUpTo (place : BareShorthand) (template : Template) : Parse (List Draft) := do
  let bound ← tokenBound
  statements template (statementUpTo place template (2 * bound)) .eos

/-- The reader of statements in a run. -/
def statementIn (place : BareShorthand) (template : Template) (composer : Composer)
    (fuel : Run → Nat) : Run → Parse Draft
  | .probe => statementUpTo place template (fuel .probe)
  | run => statementWith (template.inRun composer run) (fuel run)

/-- The reader of the shorthand and the one of the element do the same, unless the fuel is short. -/
def Opened (place : BareShorthand) (template : Template) (composer : Composer)
    (inner : Run → Parse Draft) : Prop :=
  ∀ (progress : Progress) (lexer : Lexer), Idle lexer → progress.lexer = lexer.seen place →
    Starved (shorthandStatement (template.composing composer) (inner .other) progress)
      ∨ tagStatement template (inner .full) { progress with lexer := lexer.seenFull place }
        = shorthandStatement template (inner .bare) progress

/-- A probe that gives up where a statement starts with the shorthand. -/
theorem Meets.guarded {reader reader' : Run → Parse α} (h : Meets place reader)
    (hbare : reader' .bare = reader .bare) (hother : reader' .other = reader .other)
    (hfull : reader' .full = reader .full)
    (hprobe : ∀ progress : Progress, ¬ Opens place progress.lexer →
      reader' .probe progress = reader .probe progress)
    (hopened : ∀ (progress : Progress) (lexer : Lexer), Beside place progress.lexer lexer →
      Opens place progress.lexer →
      Starved (reader .other progress)
        ∨ reader .full { progress with lexer } = reader .bare progress) :
    Meets place reader' where
  answers := by
    rw [hbare, hother]
    exact h.answers
  behind := by
    rw [hbare, hother, hfull]
    exact h.behind
  past := by
    intro progress hpast
    obtain ⟨hsame, hleaves⟩ := h.past hpast
    refine ⟨?_, hbare ▸ hleaves⟩
    rw [hprobe progress hpast.not_opens, hbare]
    exact hsame
  beside := by
    intro progress lexer hbeside
    rw [hbare, hother, hfull]
    by_cases hopens : Opens place progress.lexer
    · exact .agrees (hopened progress lexer hbeside hopens)
    · rw [hprobe progress hopens]
      exact h.beside hbeside

section Statements

variable {inner : Run → Parse Draft} (h : Meets place inner)
  (hmends : Mends composer template.compose)
include h

theorem meets_elementFrom {fuel fuel' : Nat} (hle : fuel ≤ fuel') {line : Int}
    {body : Block BlockId Draft} {classes : List String} {element : Element} :
    Meets place fun run => elementFrom (template.inRun composer run) (inner run)
      (run.fuel fuel fuel') line body classes element :=
  (meets_readAttributesWith fuel fuel' hle classes element).bind fun _ =>
    (meets_afterAttributes h).bind fun _ => meets_newNode

include hmends

/-- **Every statement meets at the place**, one case for each kind of token that may start it. -/
theorem meets_statementStep (hopened : Opened place template composer inner) :
    Meets place fun run => statementStep (template.inRun composer run) (inner run) := by
  refine meets_peekAt_bind (fun token => ?_) fun core progress hlooked => ?_
  · cases token.kind with
    | tag => exact meets_tagStatement h
    | mixin => exact meets_mixinStatement h
    | block => exact meets_blockStatement h
    | case => exact meets_caseStatement h
    | when => exact meets_whenStatement h
    | default => exact meets_defaultStatement h
    | «extends» => exact meets_extendsStatement
    | «include» => exact meets_includeStatement h hmends
    | doctype => exact meets_doctypeStatement
    | filter => exact meets_filterStatement
    | comment => exact meets_commentStatement h
    | text => exact meets_textLine
    | each => exact meets_eachStatement h
    | code => exact meets_codeStatement h
    | call => exact meets_callStatement h
    | interpolation => exact meets_interpolatedStatement h
    | yield => exact meets_yieldStatement
    | idName => exact meets_shorthandStatement h
    | className => exact meets_shorthandStatement h
    | _ => exact meets_fail
  · have hmeeting : Meeting place (shorthandStatement template (inner .probe) progress)
        (shorthandStatement (template.composing composer) (inner .other) progress)
        (shorthandStatement template (inner .bare) progress)
        (tagStatement template (inner .full)
          { progress with lexer := core.seenFull place }) := by
      obtain ⟨hdeferred, hstash⟩ :=
        List.append_eq_nil_iff.mp (List.length_eq_zero_iff.mp hlooked.last)
      cases hmode : core.mode with
      | markup =>
          exact .agrees
            (hopened progress core ⟨hmode, hdeferred, hstash, hlooked.pending⟩ hlooked.lexer)
      | raw =>
          have htaken : Leaving place (fun run => advance (template.inRun composer run)) progress :=
            leaving_advance hlooked
          have hleaving : Leaving place (fun run =>
              shorthandStatement (template.inRun composer run) (inner run)) progress :=
            htaken.bind fun _ _ _ hpast => (meets_defer.bind fun _ => h).past hpast
          exact .past hleaving.probe hleaving.leaves
    rcases token_isShorthand place core.line with hkind | hkind
    · simp only [hkind]
      exact hmeeting
    · simp only [hkind]
      exact hmeeting

omit h hmends in
/-- Where a statement starts with the shorthand, its reader and the one of the element do the same,
    unless the fuel is short. -/
theorem statementStep_opened {progress : Progress} {lexer : Lexer}
    (hopened : Opened place template composer inner) (hbeside : Beside place progress.lexer lexer)
    (hopens : Opens place progress.lexer) :
    Starved (statementStep (template.composing composer) (inner .other) progress)
      ∨ statementStep template (inner .full) { progress with lexer }
        = statementStep template (inner .bare) progress := by
  obtain ⟨core, hidle, hbare, hfull⟩ := hbeside.of_opens hopens
  have hlock : (core.seen place).lock = (core.seenFull place).lock := rfl
  have hpeek : ∀ template : Template, peek template progress
      = .ok (place.token core.line) (reached progress (core.seen place)) :=
    fun _ => peek_ok hbare
  have hstep : ∀ (template : Template) (inner : Parse Draft), statementStep template inner progress
      = shorthandStatement template inner (reached progress (core.seen place)) := by
    intro template inner
    rw [statementStep, bind_eq_of_ok (hpeek template)]
    rcases token_isShorthand place core.line with hkind | hkind
    · simp only [hkind]
    · simp only [hkind]
  have hlook : peek template { progress with lexer } = .ok ⟨core.line, .tag "div" false⟩
      (reached { progress with lexer } (core.seenFull place)) := peek_ok hfull
  have hstep' : statementStep template (inner .full) { progress with lexer }
      = tagStatement template (inner .full)
        { reached progress (core.seen place) with lexer := core.seenFull place } := by
    rw [statementStep, ← reached_beside hbeside.lock hlock]
    exact bind_eq_of_ok hlook
  rw [hstep, hstep, hstep']
  exact hopened _ core hidle rfl

omit h hmends in
theorem opened_zero {fuel' : Nat} :
    Opened place template composer (statementIn place template composer (Run.fuel 0 fuel')) :=
  fun _ _ hidle hlexer => .inl ⟨_, _, bind_eq_of_ok (advance_bare hidle hlexer), rfl⟩

omit h hmends in
theorem opened_succ {depth fuel' : Nat}
    (h : Meets place (statementIn place template composer (Run.fuel depth fuel'))) :
    Opened place template composer
      (statementIn place template composer (Run.fuel (depth + 1) fuel')) := by
  intro progress lexer hidle hlexer
  have hfuel : Lexer.potential
        { lexer with input := place.rest, deferred := [place.token lexer.line] }
      ≤ Lexer.potential { lexer with input := place.text } := by
    have hopen : countOpen [place.token lexer.line] ≤ 1 := List.length_filter_le _ _
    have hlength : place.rest.length + 1 ≤ place.text.length := by
      rw [BareShorthand.text, List.length_cons, List.length_append]
      omega
    dsimp only [Lexer.potential]
    omega
  show Starved (shorthandStatement (template.composing composer)
      (statementWith (template.composing composer) (depth + 1)) progress)
    ∨ tagStatement template (statementWith template fuel') _
      = shorthandStatement template (statementWith template (depth + 1)) progress
  rw [shorthandStatement_bare hidle hlexer, shorthandStatement_bare hidle hlexer,
    tagStatement_full hidle]
  exact (meets_elementFrom h hfuel).behind _

omit h hmends in
theorem statementUpTo_of_not_opens {progress : Progress} (hopens : ¬ Opens place progress.lexer)
    (fuel : Nat) : statementUpTo place template (fuel + 1) progress
      = statementStep template (statementUpTo place template fuel) progress := by
  show (if Opens place progress.lexer then _ else _ : Parse Draft) progress = _
  rw [if_neg hopens]

omit h in
/-- **Every statement meets at the place**, whatever the fuel. -/
theorem meets_statementIn : ∀ fuel fuel', fuel ≤ fuel' →
    Meets place (statementIn place template composer (Run.fuel fuel fuel')) := by
  intro fuel
  induction fuel using Nat.strong_induction_on with
  | _ fuel ih =>
      intro fuel' hle
      cases fuel with
      | zero => exact meets_exhausted rfl rfl rfl
      | succ fuel =>
          obtain ⟨fuel', rfl⟩ :=
            Nat.exists_eq_add_of_le' (Nat.lt_of_lt_of_le (Nat.succ_pos fuel) hle)
          have hle' : fuel ≤ fuel' := Nat.le_of_succ_le_succ hle
          have hopened : Opened place template composer
              (statementIn place template composer (Run.fuel fuel fuel')) := by
            cases fuel with
            | zero => exact opened_zero
            | succ depth => exact opened_succ (ih depth (by omega) fuel' (by omega))
          exact (meets_statementStep (ih fuel (by omega) fuel' hle') hmends hopened).guarded rfl rfl
            rfl (fun progress hopens => statementUpTo_of_not_opens hopens fuel)
            fun progress lexer hbeside hopens => statementStep_opened hopened hbeside hopens

/-- The reader of a whole template in a run. -/
def documentIn (place : BareShorthand) (template : Template) (composer : Composer) :
    Run → Parse (List Draft)
  | .probe => documentUpTo place template
  | run => document (template.inRun composer run)

omit h in
/-- **Every template meets at the place.** -/
theorem meets_document : Meets place (documentIn place template composer) := by
  have hruns : documentIn place template composer = fun run => tokenBound >>= fun bound =>
      statements (template.inRun composer run)
        (statementIn place template composer (fun _ => 2 * bound) run) .eos := by
    funext run
    cases run <;> rfl
  rw [hruns]
  refine meets_bounded fun fuel fuel' hle => meets_statements ?_ (by decide)
  have hfuel : (fun run : Run => statementIn place template composer
      (fun _ => 2 * run.fuel fuel fuel') run)
      = statementIn place template composer (Run.fuel (2 * fuel) (2 * fuel')) := by
    funext run
    cases run <;> rfl
  rw [hfuel]
  exact meets_statementIn hmends _ _ (Nat.mul_le_mul_left 2 hle)

end Statements

end Parse

end Stencil
