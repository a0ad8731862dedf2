import Stencil.Proofs.Composition.BlankLines
import Stencil.Proofs.Phrase.Scan

/-! # Reading is scanning and evaluating

    The grammar makes nodes while it takes tokens, and composes what is named on the
    way.  A scan takes the same tokens and makes nothing; an evaluation makes the
    nodes and takes nothing.  A reader does what the two do one after the other
    (`Reads`), line numbers apart.

    The rules follow the ways in which readers are joined.  The one that carries
    the rest is that what follows an evaluation may be scanned before it
    (`Reads.bindGood`): a scan sees nothing of what was composed. -/

namespace Stencil

/-- Where the reader of a template stands. -/
def Progress.cursor (progress : Progress) : Cursor := ⟨progress.lexer, progress.rawBase⟩

/-- What the reader of a template has done so far, without line numbers and log. -/
def Progress.site (progress : Progress) : Site := ⟨progress.layout, progress.assembly.plain⟩

/-! ## Plain states -/

theorem Node.lineless_lineless {ι : Type} (node : Node ι) :
    node.lineless.lineless = node.lineless := by
  induction node using induct with
  | h own line kind children ih =>
      rw [lineless_make, lineless_make, List.map_map]
      exact congrArg (make own 0 kind) (List.map_congr_left ih)

theorem Node.map_lineless_lineless {ι : Type} (nodes : List (Node ι)) :
    (nodes.map Node.lineless).map Node.lineless = nodes.map Node.lineless := by
  rw [List.map_map]
  exact List.map_congr_left fun node _ => node.lineless_lineless

theorem Block.lineless_lineless {ι : Type} (block : Block ι (Node ι)) :
    block.lineless.lineless = block.lineless := by
  rw [lineless, lineless, Node.map_lineless_lineless]

/-- What is done once to every value is done once to every value. -/
theorem OrderedMap.mapValues_idem {κ β : Type} {f : β → β} (h : ∀ value, f (f value) = f value)
    (map : OrderedMap κ β) : (map.mapValues f).mapValues f = map.mapValues f := by
  simp only [mapValues, List.map_map, Function.comp_def, h]

theorem Definition.lineless_lineless (definition : Definition Draft) :
    definition.lineless.lineless = definition.lineless := by
  simp only [lineless, Registry.copyDefinition, Block.lineless_lineless,
    Node.map_lineless_lineless]

theorem Assembly.plain_plain (assembly : Assembly) : assembly.plain.plain = assembly.plain := by
  simp only [plain, Store.lineless, Registry.lineless, linelessMixins,
    OrderedMap.mapValues_idem Block.lineless_lineless,
    OrderedMap.mapValues_idem Definition.lineless_lineless,
    OrderedMap.mapValues_idem Node.lineless_lineless]

theorem Assembly.like_iff {assembly other : Assembly} :
    assembly.Like other ↔ assembly.plain = other.plain := by
  constructor
  · intro h
    rw [plain, plain, h.store, h.registry, h.mixins, h.templates]
  · intro h
    exact ⟨(congrArg Assembly.store h :), (congrArg Assembly.registry h :),
      (congrArg Assembly.mixins h :),
      (congrArg Assembly.templates h :)⟩

theorem Assembly.like_plain (assembly : Assembly) : assembly.Like assembly.plain :=
  like_iff.mpr assembly.plain_plain.symm

theorem Composed.Like.lineless {composed other : Composed} (h : composed.Like other) :
    composed.lineless = other.lineless := by
  rw [Composed.lineless, Composed.lineless, h.root, h.layout]

/-! ## Actions without line numbers -/

section Matches

open Evaluate

variable {α β γ δ : Type} {erase : α → γ} {erase' : β → δ}

/-- Without line numbers and log, an action on what templates share does what the evaluation
    does. -/
def Matches (erase : α → γ) (action : Assemble α) (evaluate : Evaluate γ) : Prop :=
  ∀ layout assembly,
    plainly erase action ⟨layout, assembly⟩ = evaluate ⟨layout, assembly.plain⟩

theorem Matches.bind {action : Assemble α} {next : α → Assemble β} {evaluate : Evaluate γ}
    {finish : γ → Evaluate δ} (h : Matches erase action evaluate)
    (hnext : ∀ result, Matches erase' (next result) (finish (erase result))) :
    Matches erase' (action >>= next) (evaluate >>= finish) := by
  intro layout assembly
  rw [bind_apply, ← h layout assembly]
  cases hrun : action assembly with
  | error fault after =>
      have hnone : plainly erase action ⟨layout, assembly⟩ = none := plainly_of_error hrun
      rw [hnone]
      exact plainly_of_error (bind_eq_of_error hrun)
  | ok result after =>
      have hsome : plainly erase action ⟨layout, assembly⟩
          = some (erase result, ⟨layout, after.plain⟩) := plainly_of_ok hrun
      have hjoined : plainly erase' (action >>= next) ⟨layout, assembly⟩
          = plainly erase' (next result) ⟨layout, after⟩ := by
        rw [plainly, bind_eq_of_ok hrun]
        rfl
      rw [hsome, hjoined]
      exact hnext result layout after

theorem matches_pure (result : α) : Matches erase (pure result) (pure (erase result)) :=
  fun _ _ => rfl

/-- An action that sees no line numbers. -/
theorem matches_of_mirrors {same same' : α → α → Prop} {action other : Assemble α}
    (h : Mirrors same action other) (hback : Mirrors same' other action)
    (hsame : ∀ result result', same result result' → erase result = erase result') :
    Matches erase action (plainly erase other) := by
  intro layout assembly
  cases hrun : action assembly with
  | ok result after =>
      obtain ⟨result', after', hother, hresult, hafter⟩ := h assembly.like_plain hrun
      rw [plainly_of_ok hrun, plainly_of_ok hother, hsame _ _ hresult,
        Assembly.like_iff.mp hafter]
  | error fault after =>
      cases hother : other assembly.plain with
      | ok result' after' =>
          obtain ⟨_, _, hrun', -⟩ := hback assembly.like_plain.symm hother
          cases hrun.symm.trans hrun'
      | error fault' after' => rw [plainly_of_error hrun, plainly_of_error hother]

end Matches

namespace Parse

variable {α β γ δ ζ η θ : Type} {template : Template}

/-- The result of a run, where it led to, and what it did; nothing when the run failed. -/
def outcome (erase : α → γ) : EStateM.Result Fault Progress α → Option (γ × Cursor × Site)
  | .ok result after => some (erase result, after.cursor, after.site)
  | .error _ _ => none

/-- Scans, and evaluates what was scanned. -/
def inTurn (scan : Scan β) (evaluate : β → Evaluate γ) (cursor : Cursor) (site : Site) :
    Option (γ × Cursor × Site) := do
  let (scanned, cursor) ← scan cursor
  let (result, site) ← evaluate scanned site
  return (result, cursor, site)

/-- Reading does what scanning and evaluating do in turn; `erase` takes the line numbers from the
    result. -/
def Reads (erase : α → γ) (reader : Parse α) (scan : Scan β) (evaluate : β → Evaluate γ) : Prop :=
  ∀ progress, outcome erase (reader progress)
    = inTurn scan evaluate progress.cursor progress.site

/-! ## Rules -/

section Rules

variable {erase : α → γ} {erase' : β → δ} {reader other : Parse α} {next : α → Parse β}
  {scan : Scan ζ} {evaluate : ζ → Evaluate γ}

theorem outcome_bind (erase : α → γ) (erase' : β → δ) (reader : Parse α) (next : α → Parse β)
    (rest : γ × Cursor × Site → Option (δ × Cursor × Site)) (progress : Progress)
    (hnext : ∀ result after, reader progress = .ok result after →
      outcome erase' (next result after) = rest (erase result, after.cursor, after.site)) :
    outcome erase' ((reader >>= next) progress)
      = (outcome erase (reader progress)).bind rest := by
  show outcome erase' (EStateM.bind reader next progress) = _
  unfold EStateM.bind
  cases hrun : reader progress with
  | ok result after => exact hnext result after hrun
  | error fault after => rfl

theorem reads_pure {result : α} {scanned : ζ}
    (h : evaluate scanned = pure (erase result)) :
    Reads erase (pure result) (pure scanned) evaluate := by
  intro progress
  show _ = Option.bind (evaluate scanned progress.site) _
  rw [h]
  rfl

/-- The scan of what follows sees nothing of an evaluation, which may as well come later. -/
theorem inTurn_bind {more : Scan η} {finish : η → γ → Evaluate δ} {join : ζ → η → θ}
    {whole : θ → Evaluate δ}
    (hwhole : ∀ first second, whole (join first second)
      = evaluate first >>= fun result => finish second result) (cursor : Cursor) (site : Site) :
    inTurn (scan >>= fun first => more >>= fun second => pure (join first second)) whole cursor site
      = (inTurn scan evaluate cursor site).bind fun read =>
          inTurn more (finish · read.1) read.2.1 read.2.2 := by
  show Option.bind (Option.bind (scan cursor) _) _ = Option.bind (Option.bind (scan cursor) _) _
  cases scan cursor with
  | none => rfl
  | some scanned =>
      obtain ⟨first, cursor⟩ := scanned
      show Option.bind (Option.bind (more cursor) _) _
        = Option.bind (Option.bind (evaluate first site) _) _
      have hrest : ∀ second, whole (join first second) site
          = (evaluate first site).bind fun outcome => finish second outcome.1 outcome.2 :=
        fun second => congrFun (hwhole first second) site
      cases hevaluate : evaluate first site with
      | none =>
          cases more cursor with
          | none => rfl
          | some others =>
              show Option.bind (whole (join first others.1) site) _ = none
              rw [hrest, hevaluate]
              rfl
      | some evaluated =>
          show _ = Option.bind (more cursor) _
          cases more cursor with
          | none => rfl
          | some others =>
              show Option.bind (whole (join first others.1) site) _ = _
              rw [hrest, hevaluate]
              rfl

/-- **What follows an evaluation** may be scanned before it; `good` is what is known of every
    result. -/
theorem Reads.bindGood {good : α → Prop} {more : Scan η} {whole : θ → Evaluate δ}
    (h : Reads erase reader scan evaluate) (join : ζ → η → θ) (finish : η → γ → Evaluate δ)
    (hgood : ∀ progress result after, reader progress = .ok result after → good result)
    (hnext : ∀ result, good result → Reads erase' (next result) more (finish · (erase result)))
    (hwhole : ∀ first second, whole (join first second)
      = evaluate first >>= fun result => finish second result) :
    Reads erase' (reader >>= next)
      (scan >>= fun first => more >>= fun second => pure (join first second)) whole := by
  intro progress
  rw [inTurn_bind hwhole, ← h progress]
  exact outcome_bind erase erase' reader next _ progress fun result after hrun =>
    hnext result (hgood _ _ _ hrun) after

theorem Reads.bind {more : Scan η} {whole : θ → Evaluate δ}
    (h : Reads erase reader scan evaluate) (join : ζ → η → θ) (finish : η → γ → Evaluate δ)
    (hnext : ∀ result, Reads erase' (next result) more (finish · (erase result)))
    (hwhole : ∀ first second, whole (join first second)
      = evaluate first >>= fun result => finish second result) :
    Reads erase' (reader >>= next)
      (scan >>= fun first => more >>= fun second => pure (join first second)) whole :=
  have hgood : ∀ progress result after, reader progress = .ok result after → True :=
    fun _ _ _ _ => trivial
  h.bindGood join finish hgood (fun result _ => hnext result) hwhole

/-- What follows may be all evaluation. -/
theorem Reads.close (h : Reads erase reader scan evaluate) (finish : γ → Evaluate δ)
    (hnext : ∀ result, Reads erase' (next result) (pure ()) fun _ => finish (erase result)) :
    Reads erase' (reader >>= next) scan fun scanned => evaluate scanned >>= finish := by
  have hbind := h.bind (fun first (_ : Unit) => first) (fun _ => finish) hnext fun _ _ => rfl
  simpa using hbind

/-- What comes first may be all evaluation. -/
theorem Reads.first {more : Scan η} {evaluate : Evaluate γ}
    (h : Reads erase reader (pure ()) fun _ => evaluate) (finish : η → γ → Evaluate δ)
    (hnext : ∀ result, Reads erase' (next result) more (finish · (erase result))) :
    Reads erase' (reader >>= next) more fun scanned => evaluate >>= finish scanned := by
  have hbind := h.bind (fun _ scanned => scanned) finish hnext fun _ _ => rfl
  simpa using hbind

/-- What is done with the result takes nothing from it but what is left without line numbers. -/
theorem Reads.lift {result : α → δ} (h : Reads erase reader scan evaluate) (f : γ → δ)
    (hresult : ∀ value, result value = f (erase value)) :
    Reads result reader scan fun scanned => do return f (← evaluate scanned) := by
  have hpure : ∀ value : α, Reads result (pure value) (pure ()) fun _ => pure (f (erase value)) :=
    fun value => reads_pure (congrArg pure (hresult value).symm)
  simpa using h.close (fun value => pure (f value)) hpure

/-- What was scanned may be put into a phrase. -/
theorem Reads.map {whole : η → Evaluate γ} (h : Reads erase reader scan evaluate) (f : ζ → η)
    (hwhole : ∀ scanned, whole (f scanned) = evaluate scanned) :
    Reads erase reader (scan >>= fun scanned => pure (f scanned)) whole := by
  have hpure : ∀ result : α, Reads erase (pure result) (pure ()) fun _ => pure (erase result) :=
    fun _ _ => rfl
  have hbind := h.bind (fun first (_ : Unit) => f first) (fun _ => pure) hpure
    fun first _ => (hwhole first).trans (bind_pure _).symm
  simpa using hbind

/-- What is known without scanning. -/
theorem Reads.given {scanned : ζ} (h : Reads erase reader (pure ()) fun _ => evaluate scanned) :
    Reads erase reader (pure scanned) evaluate :=
  fun progress => h progress

/-- Tokens that are taken first. -/
theorem Reads.andThen {tokens : Scan α} {more : α → Scan η} {finish : η → Evaluate δ}
    (h : Reads id reader tokens pure)
    (hnext : ∀ result, Reads erase' (next result) (more result) finish) :
    Reads erase' (reader >>= next) (tokens >>= more) finish := by
  intro progress
  rw [outcome_bind id erase' reader next
    (fun read => inTurn (more read.1) finish read.2.1 read.2.2) progress
    fun result after _ => hnext result after, h progress]
  show Option.bind (Option.bind (tokens progress.cursor) _) _
    = Option.bind (Option.bind (tokens progress.cursor) _) _
  cases tokens progress.cursor <;> rfl

theorem Reads.ite {condition : Prop} [Decidable condition] {scan' : Scan ζ}
    (h : Reads erase reader scan evaluate) (hother : Reads erase other scan' evaluate) :
    Reads erase (if condition then reader else other) (if condition then scan else scan')
      evaluate := by
  split
  · exact h
  · exact hother

theorem reads_throw (fault : Fault) : Reads erase (throw fault) failure evaluate := fun _ => rfl

theorem reads_fail (cause : Cause) (line : Int) :
    Reads erase (fail template cause line) failure evaluate :=
  fun _ => rfl

end Rules

/-! ## Readers of tokens -/

section Tokens

/-- A reader that only takes tokens: it does the same in every template, and changes nothing that
    templates share. -/
def Lexical (reader : Template → Parse α) : Prop :=
  ∀ template, Reads id (reader template) (.of reader) pure

variable {reader other : Template → Parse α} {next : Template → α → Parse β}

theorem of_eq_outcome (reader : Template → Parse α) (cursor : Cursor) :
    Scan.of reader cursor
      = (outcome id (reader Scan.blank
          { lexer := cursor.lexer, rawBase := cursor.rawBase, assembly := {} })).map
          fun read => (read.1, read.2.1) := by
  unfold Scan.of
  split <;> next hrun => rw [hrun]; rfl

theorem of_bind (reader : Template → Parse α) (h : ∀ result, Lexical fun template =>
      next template result) :
    Scan.of (fun template => reader template >>= next template)
      = Scan.of reader >>= fun result => Scan.of fun template => next template result := by
  funext cursor
  show _ = Option.bind (Scan.of reader cursor) _
  rw [of_eq_outcome, of_eq_outcome, outcome_bind id id (reader Scan.blank) (next Scan.blank)
    (fun read => inTurn (.of fun template => next template read.1) pure read.2.1 read.2.2) _
    fun result after _ => h result Scan.blank after]
  cases outcome id (reader Scan.blank _) with
  | none => rfl
  | some first =>
      obtain ⟨result, cursor, site⟩ := first
      show Option.map _ (Option.bind (Scan.of (fun template => next template result) cursor) _)
        = Scan.of (fun template => next template result) cursor
      cases Scan.of (fun template => next template result) cursor <;> rfl

theorem Lexical.bind (h : Lexical reader) (hnext : ∀ result, Lexical fun template =>
      next template result) : Lexical fun template => reader template >>= next template := by
  intro template
  rw [of_bind reader hnext]
  exact (h template).andThen fun result => hnext result template

theorem Lexical.ite {condition : Prop} [Decidable condition] (h : Lexical reader)
    (hother : Lexical other) :
    Lexical fun template => if condition then reader template else other template := by
  split
  · exact h
  · exact hother

theorem lexical_pure (result : α) : Lexical fun _ => (pure result : Parse α) := fun _ _ => rfl

theorem lexical_throw (fault : Fault) : Lexical fun _ => (throw fault : Parse α) := fun _ _ => rfl

theorem lexical_fail (cause : Cause) (line : Int) :
    Lexical fun template => (fail template cause line : Parse α) :=
  fun _ _ => rfl

theorem Lexical.discard (h : Lexical reader) :
    Lexical fun template => Functor.discard (reader template) := by
  exact h.bind fun _ => lexical_pure ()

theorem lexical_onLexer (action : Lexer → Lexer.Outcome α) :
    Lexical fun template => onLexer template action := by
  intro template progress
  show _ = Option.bind (Scan.of (fun template => onLexer template action) progress.cursor) _
  unfold Scan.of onLexer
  dsimp only [Progress.cursor]
  rcases action progress.lexer with ⟨fault | value, lexer⟩ <;> rfl

theorem lexical_peekAt (offset : Nat) : Lexical (peekAt · offset) := lexical_onLexer _

theorem lexical_peek : Lexical peek := lexical_peekAt 0

theorem lexical_advance : Lexical advance := lexical_onLexer _

theorem lexical_drop : Lexical fun template => discard (advance template) :=
  lexical_advance.discard

theorem lexical_isAt (kind : TokenKind) : Lexical (isAt · kind) :=
  lexical_peek.bind fun _ => lexical_pure _

theorem lexical_expect (kind : TokenKind) : Lexical (expect · kind) :=
  lexical_peek.bind fun _ => .ite lexical_advance (lexical_fail _ _)

theorem lexical_outdent : Lexical fun template => discard (expect template .outdent) :=
  (lexical_expect _).discard

theorem lexical_tokenBound : Lexical fun _ => tokenBound := fun _ _ => rfl

theorem lexical_defer (tokens : List Token) : Lexical fun _ => defer tokens := fun _ _ => rfl

theorem lexical_setMode (mode : Mode) : Lexical fun _ => setMode mode := fun _ _ => rfl

theorem lexical_skip (count : Nat) : Lexical (skip · count) := by
  induction count with
  | zero => exact lexical_pure _
  | succ count ih => exact lexical_drop.bind fun _ => ih

theorem lexical_skipNewlinesWith (fuel : Nat) : Lexical (skipNewlinesWith · fuel) := by
  induction fuel with
  | zero => exact lexical_throw _
  | succ fuel ih =>
      exact (lexical_isAt _).bind fun _ => .ite (lexical_drop.bind fun _ => ih) (lexical_pure _)

theorem lexical_skipNewlines : Lexical skipNewlines :=
  lexical_tokenBound.bind lexical_skipNewlinesWith

theorem lexical_newlinesFrom (fuel offset : Nat) : Lexical (newlinesFrom · fuel offset) := by
  induction fuel generalizing offset with
  | zero => exact lexical_throw _
  | succ fuel ih => exact (lexical_peekAt _).bind fun _ => .ite (ih _) (lexical_pure _)

theorem lexical_readAttributesWith (fuel : Nat) (classes : List String) (element : Element) :
    Lexical (readAttributesWith · fuel classes element) := by
  induction fuel generalizing classes element with
  | zero => exact lexical_throw _
  | succ fuel ih =>
      refine lexical_peek.bind fun token => ?_
      split
      · exact lexical_drop.bind fun _ => ih _ _
      · exact lexical_drop.bind fun _ => ih _ _
      · exact lexical_drop.bind fun _ => ih _ _
      · exact lexical_pure _

theorem lexical_readAttributes (element : Element) : Lexical (readAttributes · element) :=
  lexical_tokenBound.bind fun fuel => lexical_readAttributesWith fuel [] element

theorem lexical_takeDot : Lexical takeDot :=
  lexical_peek.bind fun _ => .ite (lexical_drop.bind fun _ => lexical_pure _) (lexical_pure _)

end Tokens

/-! ## Evaluations -/

section Evaluations

open Evaluate

variable {erase : α → γ}

theorem reads_newBlock (line : Int) (nodes : List Draft) (props : BlockProps) :
    Reads Block.lineless (newBlock line nodes props) (pure ()) fun _ =>
      Evaluate.newBlock (nodes.map Node.lineless) props :=
  fun _ => rfl

theorem reads_newNode (line : Int) (kind : Kind BlockId) (blocks : List (Block BlockId Draft))
    (code : Option Draft) :
    Reads Node.lineless (newNode line kind blocks code) (pure ()) fun _ =>
      Evaluate.newNode kind
        (code.toList.map Node.lineless ++ blocks.map fun block => .ofBlock block.lineless) := by
  intro progress
  have hblocks : (blocks.map Node.ofBlock).map Node.lineless
      = blocks.map fun block => .ofBlock block.lineless := by
    rw [List.map_map]
    exact List.map_congr_left fun block _ => Node.lineless_ofBlock block
  show some (Node.lineless (.make _ _ _ _), _, _) = _
  rw [Node.lineless_make, List.map_append, hblocks]
  rfl

/-- An action on what templates share, run as a reader. -/
theorem reads_assemble {action : Assemble α} {evaluate : Evaluate γ}
    (h : Matches erase action evaluate) :
    Reads erase (assemble action) (pure ()) fun _ => evaluate := by
  intro progress
  show _ = Option.bind (evaluate progress.site) _
  rw [show progress.site = ⟨progress.layout, progress.assembly.plain⟩ from rfl, ← h]
  unfold assemble plainly
  dsimp only
  cases action progress.assembly <;> rfl

/-- A reader that looks at where it stands. -/
theorem reads_get {erase' : β → δ} {next : Progress → Parse β} {more : Cursor → Scan η}
    {evaluate : η → Evaluate δ}
    (h : ∀ progress : Progress, Reads erase' (next progress) (more progress.cursor) evaluate) :
    Reads erase' (get >>= next) (get >>= more) evaluate :=
  fun progress => h progress progress

/-- A reader that changes where it stands. -/
theorem reads_modify {f : Progress → Progress} {g : Cursor → Cursor}
    (hcursor : ∀ progress, (f progress).cursor = g progress.cursor)
    (hsite : ∀ progress, (f progress).site = progress.site) :
    Reads id (modify f : Parse PUnit) (modify g) pure := by
  intro progress
  show some (PUnit.unit, (f progress).cursor, (f progress).site)
    = some (PUnit.unit, g progress.cursor, progress.site)
  rw [hcursor, hsite]

end Evaluations

end Parse

end Stencil
