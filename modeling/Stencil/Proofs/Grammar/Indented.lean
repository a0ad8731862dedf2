import Stencil.Proofs.Grammar.Apart
import Stencil.Proofs.Grammar.Gives
import Stencil.Proofs.Lexer.Margins

/-! # Indented — the texts that a raw body makes of its lines

    The reader of raw bodies puts the indentation back in front of a line that
    the lexer has taken away.  It knows the width of the body that the line is
    in and that of the outermost one, which is kept while a body inside it is
    read; so it finds the lines as they are laid, one body for each level
    (`rawLinesWith_gives`, `rawBlockWith_gives`).

    At a switch no raw body is open, so that the width of the outermost body is
    its own, and the lexer is at its first line.  There the texts of a body are
    its lines as they are laid, and they are as deep as they are written exactly
    when the lines are steady (`rawBodies_indented`). -/

namespace Stencil

open Lexer

namespace Parse

variable {α β : Type} {template : Template} {token : Token} {tokens rest : List Token}
  {rawBase : Option Nat}

/-! ## Readers inside a raw body -/

/-- From any state with these tokens ahead and this width of the outermost raw body, a reader gives
    a result; the result and the tokens that are left are good. -/
def GivesIn (rawBase : Option Nat) (reader : Parse α) (tokens : List Token)
    (good : α → List Token → Prop) : Prop :=
  ∀ progress : Progress, progress.lexer.Ahead tokens → progress.rawBase = rawBase →
    ∃ result after rest, reader progress = .ok result after
      ∧ Taken progress after tokens rest ∧ good result rest

theorem Gives.givesIn {reader : Parse α} {good : α → List Token → Prop}
    (h : Gives reader tokens good) : GivesIn rawBase reader tokens good :=
  fun progress hahead _ => h progress hahead

theorem GivesIn.bind {reader : Parse α} {next : α → Parse β} {m : α → List Token → Prop}
    {good : β → List Token → Prop} (h : GivesIn rawBase reader tokens m)
    (hnext : ∀ result rest, m result rest → GivesIn rawBase (next result) rest good) :
    GivesIn rawBase (reader >>= next) tokens good := by
  intro progress hahead hbase
  obtain ⟨result, after, rest, hrun, htaken, hm⟩ := h progress hahead hbase
  obtain ⟨last, final, left, hlast, hfinal, hgood⟩ :=
    hnext result rest hm after htaken.ahead (htaken.unmoved.rawBase.trans hbase)
  exact ⟨last, final, left, bind_of_ok hrun hlast, htaken.trans hfinal, hgood⟩

/-- What a reader gives by itself, before another one. -/
theorem Gives.bindIn {reader : Parse α} {next : α → Parse β} {m : α → List Token → Prop}
    {good : β → List Token → Prop} (h : Gives (reader >>= pure) tokens m)
    (hnext : ∀ result rest, m result rest → GivesIn rawBase (next result) rest good) :
    GivesIn rawBase (reader >>= next) tokens good := by
  rw [bind_pure] at h
  exact h.givesIn.bind hnext

theorem givesIn_peek {next : Token → Parse β} {good : β → List Token → Prop}
    (h : GivesIn rawBase (next token) (token :: tokens) good) :
    GivesIn rawBase (peek template >>= next) (token :: tokens) good := by
  refine (gives_peek (gives_pure ⟨rfl, rfl⟩) : Gives (peek template >>= pure) (token :: tokens)
    fun result rest => result = token ∧ rest = token :: tokens).bindIn ?_
  rintro _ _ ⟨rfl, rfl⟩
  exact h

theorem givesIn_advance {next : Token → Parse β} {good : β → List Token → Prop}
    (h : GivesIn rawBase (next token) tokens good) :
    GivesIn rawBase (advance template >>= next) (token :: tokens) good := by
  refine (gives_advance (gives_pure ⟨rfl, rfl⟩) : Gives (advance template >>= pure)
    (token :: tokens) fun result rest => result = token ∧ rest = tokens).bindIn ?_
  rintro _ _ ⟨rfl, rfl⟩
  exact h

theorem givesIn_newNode {line : Int} {kind : Kind BlockId} {next : Draft → Parse β}
    {good : β → List Token → Prop}
    (h : ∀ node : Draft, node.kind = kind → GivesIn rawBase (next node) tokens good) :
    GivesIn rawBase (newNode line kind >>= next) tokens good := by
  refine (gives_newNode fun id => ⟨rfl, rfl⟩ : Gives (newNode line kind) tokens
    fun node rest => node.kind = kind ∧ rest = tokens).givesIn.bind ?_
  rintro node _ ⟨hnode, rfl⟩
  exact h node hnode

/-! ## The loop over raw lines -/

/-- Nodes that are texts. -/
def Texts (nodes : List Draft) (texts : List (List Char)) : Prop :=
  nodes.map Node.kind = texts.map fun text => Kind.text (String.ofList text)

/-- Of the lines of a body the first ones have become nodes, and the tokens that are left lay the
    others. -/
def Reached (base : Nat) (levels : List Nat) (texts : List (List Char)) (nodes : List Draft)
    (left : List Token) : Prop :=
  ∃ done more, texts = done ++ more ∧ Texts nodes done ∧ Lays base levels left more

variable {base level width bound : Nat} {levels : List Nat} {texts : List (List Char)}
  {deeper : Parse (Block BlockId Draft)}

theorem reached_nil (h : Lays base levels tokens texts) : Reached base levels texts [] tokens :=
  ⟨[], texts, rfl, rfl, h⟩

theorem Texts.append {nodes others : List Draft} {more : List (List Char)} (h : Texts nodes texts)
    (hmore : Texts others more) : Texts (nodes ++ others) (texts ++ more) := by
  rw [Texts, List.map_append, List.map_append, h, hmore]

/-- What the loop over raw lines leaves: the outdent of its body, and behind it what lays the lines
    of the bodies around it. -/
def LeftBehind (base : Nat) (levels : List Nat) (texts : List (List Char)) (nodes : List Draft)
    (left : List Token) : Prop :=
  ∃ outdent rest, left = outdent :: rest ∧ outdent.kind = .outdent
    ∧ Reached base levels texts nodes rest

/-- **The loop over raw lines** makes texts of the lines up to the outdent of its body. -/
theorem rawLinesWith_gives
    (hdeeper : ∀ {width : Nat} {token : Token} {tokens : List Token} {texts : List (List Char)},
      token.lexeme = .indent width → base < width →
        Lays base (width :: level :: levels) tokens texts → tokens.length < bound →
          GivesIn (some base) deeper (token :: tokens) fun block left =>
            Reached base (level :: levels) texts block.nodes left ∧ left.length ≤ tokens.length)
    (fuel : Nat) : ∀ {tokens : List Token} {texts : List (List Char)},
      Lays base (level :: levels) tokens texts → tokens.length ≤ bound → tokens.length < fuel →
        GivesIn (some base) (rawLinesWith template deeper (level - base) fuel) tokens
          (LeftBehind base levels texts) := by
  induction fuel with
  | zero => exact fun _ _ h => absurd h (Nat.not_lt_zero _)
  | succ fuel ih =>
      intro tokens texts h hbound hfuel
      cases h with
      | @line _ _ token tokens lines kind rest =>
          refine givesIn_peek ?_
          rw [kind]
          refine givesIn_advance (givesIn_newNode fun node hnode => ?_)
          refine (ih rest (Nat.le_of_succ_le hbound) (Nat.lt_of_succ_lt_succ hfuel)).bind ?_
          rintro nodes _ ⟨outdent, left, rfl, hkind, done, more, rfl, hdone, hlays⟩
          refine (gives_pure ⟨outdent, left, rfl, hkind, _ :: done, more, rfl, ?_, hlays⟩).givesIn
          rw [Texts, List.map_cons, List.map_cons, hnode, hdone, indented, String.ofList_append,
            String.ofList_toList]
      | @newline _ _ token tokens lines kind rest =>
          refine givesIn_peek ?_
          rw [kind]
          show GivesIn _ (discard (advance template) >>= _) _ _
          rw [discard_bind]
          exact givesIn_advance
            (ih rest (Nat.le_of_succ_le hbound) (Nat.lt_of_succ_lt_succ hfuel))
      | @indent width _ _ token tokens lines lexeme wider rest =>
          have hkind : token.kind = .indent := congrArg Lexeme.kind lexeme
          have hlength : tokens.length < fuel := Nat.lt_of_succ_lt_succ hfuel
          refine givesIn_peek ?_
          rw [hkind]
          refine (hdeeper lexeme wider rest hbound).bind fun block left hblock => ?_
          obtain ⟨⟨done, more, rfl, hdone, hlays⟩, hle⟩ := hblock
          have hleft := ih hlays (hle.trans (Nat.le_of_succ_le hbound)) (hle.trans_lt hlength)
          refine hleft.bind fun nodes behind hbehind => ?_
          obtain ⟨outdent, rest', rfl, houtdent, next, last, rfl, hnext, hlast⟩ := hbehind
          exact (gives_pure ⟨outdent, rest', rfl, houtdent, done ++ next, last,
            (List.append_assoc _ _ _).symm, hdone.append hnext, hlast⟩).givesIn
      | @outdent _ _ token tokens lines kind rest =>
          refine givesIn_peek ?_
          rw [kind]
          exact (gives_pure ⟨token, tokens, rfl, kind, reached_nil rest⟩).givesIn

/-! ## Bodies -/

/-- An expected token that is ahead is taken. -/
theorem expect_ahead {kind : TokenKind} {progress : Progress}
    (h : progress.lexer.Ahead (token :: tokens)) (hkind : token.kind = kind) :
    ∃ after, expect template kind progress = .ok token after
      ∧ Taken progress after (token :: tokens) tokens := by
  have hgives : Gives (expect template kind >>= pure) (token :: tokens)
      fun result rest => result = token ∧ rest = tokens :=
    gives_expect hkind (gives_pure ⟨rfl, rfl⟩)
  rw [bind_pure] at hgives
  obtain ⟨result, after, rest, hrun, htaken, hresult, hrest⟩ := hgives progress h
  exact ⟨after, hresult ▸ hrun, hrest ▸ htaken⟩

/-- What closes a raw body of a width: it is not open any more if it was the outermost one. -/
def closeBody (width : Nat) (progress : Progress) : Progress :=
  if progress.rawBase = some width then { progress with rawBase := none } else progress

theorem closeBody_eq (width : Nat) (progress : Progress) :
    ∃ rawBase, closeBody width progress = { progress with rawBase } := by
  unfold closeBody
  split
  · exact ⟨none, rfl⟩
  · exact ⟨progress.rawBase, rfl⟩

/-- A body is closed where the one that was open before it is open again. -/
theorem rawBase_closeBody {progress : Progress} (h : progress.rawBase = some base)
    (hbase : rawBase.getD width = base) (hopen : rawBase = none ∨ base < width) :
    (closeBody width progress).rawBase = rawBase := by
  unfold closeBody
  rcases hopen with rfl | hlt
  · obtain rfl : width = base := hbase
    rw [if_pos h]
  · rw [if_neg (by rw [h]; simpa using Nat.ne_of_lt hlt), h]
    cases rawBase with
    | none => exact absurd hbase (Nat.ne_of_gt hlt)
    | some outer => exact congrArg some hbase.symm

/-- A raw body is read with the width of the outermost one: that of the body that is open, or its
    own if none is. -/
theorem rawBlockWith_gives_of_loop {fuel : Nat} {good : List Draft → List Token → Prop}
    (hlexeme : token.lexeme = .indent width) (hbase : rawBase.getD width = base)
    (hopen : rawBase = none ∨ base < width) (hcount : countOpen tokens = tokens.length)
    (hloop : ∀ {steps : Nat}, tokens.length < steps →
      GivesIn (some base) (rawLinesWith template (rawBlockWith template fuel) (width - base) steps)
        tokens fun nodes left =>
          ∃ outdent rest, left = outdent :: rest ∧ outdent.kind = .outdent ∧ good nodes rest) :
    GivesIn rawBase (rawBlockWith template (fuel + 1)) (token :: tokens) fun block left =>
      good block.nodes left ∧ left.length ≤ tokens.length := by
  intro progress hahead hprogress
  obtain rfl : indentWidth token = width := by rw [indentWidth, hlexeme]
  obtain ⟨entered, hexpect, hentered⟩ := expect_ahead hahead (congrArg Lexeme.kind hlexeme)
  obtain rfl : entered.rawBase = rawBase := hentered.unmoved.rawBase.trans hprogress
  subst hbase
  -- behind the indent the width of the outermost body is settled
  let opened : Progress :=
    { entered with rawBase := some (entered.rawBase.getD (indentWidth token)) }
  have hbound := Nat.lt_succ_of_le hentered.ahead.countOpen_le
  rw [hcount] at hbound
  obtain ⟨nodes, looped, _, hlines, hlooped, outdent, left, rfl, houtdent, hgood⟩ :=
    hloop hbound opened hentered.ahead rfl
  -- behind the lines the body is closed, and the outdent leads out of it
  obtain ⟨outer, hclosed⟩ := closeBody_eq (indentWidth token) looped
  have hclose : (modify (closeBody (indentWidth token)) : Parse PUnit) looped
      = .ok ⟨⟩ (closeBody (indentWidth token) looped) := rfl
  obtain ⟨final, hlast, hfinal⟩ : ∃ final,
      expect template .outdent (closeBody (indentWidth token) looped) = .ok outdent final
        ∧ Taken (closeBody (indentWidth token) looped) final (outdent :: left) left := by
    refine expect_ahead ?_ houtdent
    rw [hclosed]
    exact hlooped.ahead
  have hinner : entered.Unmoved (closeBody (indentWidth token) looped) := by
    refine ⟨rawBase_closeBody hlooped.unmoved.rawBase rfl hopen, ?_, ?_, ?_, ?_⟩ <;> rw [hclosed]
    · exact hlooped.unmoved.layout
    · exact hlooped.unmoved.registry
    · exact hlooped.unmoved.mixins
    · exact hlooped.unmoved.current
  have hmoved := (hentered.unmoved.trans hinner).trans hfinal.unmoved
  have hsuffix := (List.suffix_cons outdent left).trans hlooped.suffix
  refine ⟨_, _, left, bind_of_ok hexpect (bind_of_ok rfl (bind_of_ok rfl (bind_of_ok rfl
    (bind_of_ok hlines (bind_of_ok hclose (bind_of_ok (discard_eq_ok hlast) rfl)))))), ?_,
    hgood, hsuffix.length_le⟩
  exact ⟨hfinal.ahead, hsuffix.trans (List.suffix_cons token tokens), hmoved.rawBase,
    hmoved.layout, hmoved.registry, hmoved.mixins, hmoved.current⟩

/-- **A raw body inside another one** makes texts of its lines. -/
theorem rawBlockWith_gives (fuel : Nat) : ∀ {width level : Nat} {levels : List Nat} {token : Token}
    {tokens : List Token} {texts : List (List Char)}, token.lexeme = .indent width →
      base < width → Lays base (width :: level :: levels) tokens texts → tokens.length < fuel →
        GivesIn (some base) (rawBlockWith template fuel) (token :: tokens) fun block left =>
          Reached base (level :: levels) texts block.nodes left ∧ left.length ≤ tokens.length := by
  induction fuel with
  | zero => exact fun _ _ _ h => absurd h (Nat.not_lt_zero _)
  | succ fuel ih =>
      intro width level levels token tokens texts hlexeme hwider hlays hfuel
      refine rawBlockWith_gives_of_loop hlexeme rfl (.inr hwider) hlays.countOpen fun hsteps => ?_
      exact rawLinesWith_gives ih _ hlays (Nat.le_of_lt_succ hfuel) hsteps

/-- **The outermost raw body** makes texts of all its lines. -/
theorem rawBlockWith_gives_outermost {fuel : Nat} (hlexeme : token.lexeme = .indent width)
    (hlays : Lays width [width] tokens texts) (hfuel : tokens.length < fuel) :
    GivesIn none (rawBlockWith template fuel) (token :: tokens) fun block _ =>
      Texts block.nodes texts := by
  obtain ⟨fuel, rfl⟩ := Nat.exists_eq_add_one_of_ne_zero (Nat.ne_of_gt (Nat.zero_lt_of_lt hfuel))
  have hbody : GivesIn none (rawBlockWith template (fuel + 1)) (token :: tokens) fun block left =>
      Reached width [] texts block.nodes left ∧ left.length ≤ tokens.length :=
    rawBlockWith_gives_of_loop hlexeme rfl (.inl rfl) hlays.countOpen fun hsteps =>
      rawLinesWith_gives (rawBlockWith_gives fuel) _ hlays (Nat.le_of_lt_succ hfuel) hsteps
  intro progress hahead hbase
  obtain ⟨block, after, left, hrun, htaken, ⟨done, more, htexts, hdone, hmore⟩, -⟩ :=
    hbody progress hahead hbase
  -- behind the outermost body nothing is left
  cases hmore
  rw [List.append_nil] at htexts
  exact ⟨block, after, _, hrun, htaken, htexts ▸ hdone⟩

/-- A raw body that is read when none is open. -/
theorem rawBlock_of_lays {state : Progress} (hbase : state.rawBase = none)
    (hahead : state.intoRaw.lexer.Ahead (token :: tokens)) (hlexeme : token.lexeme = .indent width)
    (hlays : Lays width [width] tokens texts) :
    ∃ block after, rawBlock template state = .ok block after ∧ Texts block.nodes texts := by
  have hbound := Nat.lt_succ_of_le hahead.countOpen_le
  rw [countOpen_cons_of_ne (by simp [Token.kind, hlexeme, Lexeme.kind]), hlays.countOpen] at hbound
  obtain ⟨block, after, left, hrun, -, htexts⟩ :=
    rawBlockWith_gives_outermost hlexeme hlays (Nat.lt_of_succ_lt hbound) state.intoRaw hahead hbase
  exact ⟨block, _, bind_of_ok rfl (bind_of_ok rfl (bind_of_ok hrun (bind_of_ok rfl rfl))), htexts⟩

end Parse

open Parse

variable {template : Template} {state entered : Progress} {token : Token} {tokens : List Token}

/-! ## At a switch -/

theorem Lexer.InRaw.inBody {style : IndentStyle} {width : Nat} {lexer : Lexer}
    (h : InRaw style width 1 lexer) : InBody style width [] lexer := by
  obtain ⟨inner, outer, hlevels, hdepth, -⟩ := h.levels
  obtain rfl : inner = [] := List.length_eq_zero_iff.mp (by omega)
  have hpending : lexer.pending = [] := List.length_eq_zero_iff.mp (by omega)
  exact ⟨h.mode, h.lock, hpending, outer, hlevels⟩

/-- **The texts of a raw body** that is read when none is open are its lines as they are laid. -/
theorem rawBlock_of_body {lock : IndentLock} {first : RawLine} {lines : List BodyLine}
    {rest : List Char} (h : Between Ready state)
    (hexpect : expect template .indent state.intoRaw = .ok token entered)
    (hlock : entered.lexer.lock = some lock)
    (hends : EndsBody lock.style (indentWidth token) lines rest)
    (hinput : entered.lexer.input = bodyText lock.style (indentWidth token) first lines rest) :
    ∃ block after, rawBlock template state = .ok block after
      ∧ Texts block.nodes (first.text :: BodyLine.lay [] lines) := by
  obtain ⟨-, -, -, hlexeme, ⟨lock', hlock', hraw⟩, hahead⟩ := h.2.enters hexpect
  obtain rfl : lock' = lock := Option.some.inj (hlock'.symm.trans hlock)
  obtain ⟨tokens, last, hreads, hlays⟩ := hraw.inBody.reads_body hends hinput
  exact rawBlock_of_lays h.1 (hahead hreads) hlexeme hlays

theorem texts_inj {nodes : List Draft} {texts others : List (List Char)} (h : Texts nodes texts) :
    Texts nodes others ↔ texts = others := by
  rw [Texts, h]
  exact (List.map_injective_iff.mpr fun _ _ hsame =>
    String.ofList_injective (Kind.text.inj hsame)).eq_iff

/-- **Raw text keeps its relative indentation exactly when its lines are steady**, in every run over
    a source: where the template is switched, a body of lines that are no narrower than the first
    one becomes a text for each of them.  The texts are the lines with the indentation that they
    have beyond that of the first one if and only if each line is as deep as the line before it or
    deeper, or as deep as the last one before it that is no deeper, and blank lines only follow
    lines that are as deep as the first one. -/
theorem rawBodies_indented (config : Config) (source : Source)
    (compose : Source → Assemble Composed) (owner : Nat) (assembly : Assembly) (state : Progress)
    (hswitch : SwitchesAt (source.template config compose owner) (source.begin config assembly)
      state)
    (token : Token) (entered : Progress)
    (hexpect : expect (source.template config compose owner) .indent state.intoRaw
      = .ok token entered)
    (lock : IndentLock) (hlock : entered.lexer.lock = some lock)
    (first : RawLine) (lines : List BodyLine) (rest : List Char)
    (hends : EndsBody lock.style (indentWidth token) lines rest)
    (hinput : entered.lexer.input = bodyText lock.style (indentWidth token) first lines rest) :
    ∃ block after, rawBlock (source.template config compose owner) state = .ok block after
      ∧ Texts block.nodes (first.text :: BodyLine.lay [] lines)
      ∧ (Texts block.nodes (first.text :: lines.map BodyLine.relative)
          ↔ BodyLine.Steady [] lines) := by
  have hready := hswitch.ready (between_begin config source assembly)
  obtain ⟨block, after, hrun, htexts⟩ := rawBlock_of_body hready hexpect hlock hends hinput
  refine ⟨block, after, hrun, htexts, ?_⟩
  rw [texts_inj htexts, List.cons_eq_cons, BodyLine.lay_eq_iff]
  exact and_iff_right rfl

/-! ### Pages with raw bodies -/

/-- The template of a page that is read by itself. -/
def Source.alone (page : Source) : Template := page.template {} (composeWith {} 0) 0

/-- The state in which a page is switched first: a reader that refuses raw bodies stops there. -/
def Source.firstSwitch (page : Source) : Progress :=
  match documentVia page.alone (fun state => .error ⟨.exhausted, {}⟩ state) (page.begin {} {}) with
  | .ok _ state => state
  | .error _ state => state

/-- A page is switched where refusing the raw body makes a difference. -/
theorem switchesAt_firstSwitch {page : Source}
    (h : succeeds (documentVia page.alone (Function.update (rawBlock page.alone) page.firstSwitch
        (.error ⟨.exhausted, {}⟩ page.firstSwitch)) (page.begin {} {}))
      ≠ succeeds (documentVia page.alone (rawBlock page.alone) (page.begin {} {}))) :
    SwitchesAt page.alone (page.begin {} {}) page.firstSwitch :=
  dependsOn_of_ne fun hsame => h (congrArg succeeds hsame)

/-- Whether a page goes on past the indent of that raw body, to a state of a kind. -/
def Source.entersWith (page : Source) (p : Token → Progress → Bool) : Bool :=
  match expect page.alone .indent page.firstSwitch.intoRaw with
  | .ok token entered => p token entered
  | .error _ _ => false

theorem exists_of_entersWith {page : Source} {p : Token → Progress → Bool}
    (h : page.entersWith p = true) :
    ∃ token entered, expect page.alone .indent page.firstSwitch.intoRaw = .ok token entered
      ∧ p token entered = true := by
  unfold Source.entersWith at h
  split at h
  · next token entered hexpect => exact ⟨token, entered, hexpect, h⟩
  · exact nomatch h

/-- The texts of the raw body at which a page is switched first. -/
def Source.firstTexts (page : Source) : List (Kind BlockId) :=
  match rawBlock page.alone page.firstSwitch with
  | .ok block _ => block.nodes.map Node.kind
  | .error _ _ => []

/-- A line with one letter on it. -/
def letterLine (c : Char) (h : Text.isIndentation c = false ∧ c ≠ '\n') : RawLine where
  text := [c]
  begins := ⟨c, [], rfl, h⟩
  oneLine := by simpa using h.2.symm

/-- A page with a filter whose lines go in and come out again, and with a blank line. -/
def filterPage : Source where
  text := "div\n  :plain\n    a\n\n      b\n         c\n      d\n    e\n  p"

/-- The lines of the filter behind the first one. -/
def filterLines : List BodyLine :=
  [.blank 0, .text 2 (letterLine 'b' (by decide)), .text 5 (letterLine 'c' (by decide)),
   .text 2 (letterLine 'd' (by decide)), .text 0 (letterLine 'e' (by decide))]

theorem rawBodies_indented_filterPage :
    SwitchesAt filterPage.alone (filterPage.begin {} {}) filterPage.firstSwitch
      ∧ ∃ block after, rawBlock filterPage.alone filterPage.firstSwitch = .ok block after
        ∧ Texts block.nodes (['a'] :: filterLines.map BodyLine.relative) := by
  have hswitch : SwitchesAt filterPage.alone (filterPage.begin {} {}) filterPage.firstSwitch :=
    switchesAt_firstSwitch (by decide +kernel)
  have henters : filterPage.entersWith (fun token entered =>
      indentWidth token == 4 && entered.lexer.lock == some ⟨.spaces, 2⟩
        && entered.lexer.input == bodyText .spaces 4 (letterLine 'a' (by decide)) filterLines
          ('\n' :: (List.replicate 2 ' ' ++ ['p']))) = true := by
    decide +kernel
  obtain ⟨token, entered, hexpect, hbody⟩ := exists_of_entersWith henters
  simp only [Bool.and_eq_true, beq_iff_eq] at hbody
  obtain ⟨⟨hwidth, hlock⟩, hinput⟩ := hbody
  have hends : EndsBody .spaces (indentWidth token) filterLines
      ('\n' :: (List.replicate 2 IndentStyle.spaces.char ++ ['p'])) :=
    .narrower 2 ['p'] (by rw [hwidth]; decide) ⟨'p', [], rfl, by decide⟩
  rw [← hwidth] at hinput
  obtain ⟨block, after, hrun, -, hiff⟩ := rawBodies_indented {} filterPage (composeWith {} 0) 0
    {} _ hswitch token entered hexpect _ hlock _ filterLines _ hends hinput
  exact ⟨hswitch, block, after, hrun, hiff.mpr (by decide)⟩

/-- A page with a script whose last line comes out to a depth that no line has had. -/
def steppedPage : Source where
  text := "script\n  a\n      b\n    c"

/-- The lines of the script behind the first one. -/
def steppedLines : List BodyLine :=
  [.text 4 (letterLine 'b' (by decide)), .text 2 (letterLine 'c' (by decide))]

/-- **A line that comes out to a new depth is pulled to the left**: the last line of the page has
    two more spaces than the first one, and its text has none. -/
theorem steppedPage_pulled :
    steppedPage.text
        = "script\n  " ++ String.ofList
            (bodyText .spaces 2 (letterLine 'a' (by decide)) steppedLines [])
      ∧ steppedPage.firstTexts = [.text "a", .text "    b", .text "c"]
      ∧ steppedPage.firstTexts
        ≠ (['a'] :: steppedLines.map BodyLine.relative).map
            fun text => .text (String.ofList text) := by
  decide +kernel

end Stencil
