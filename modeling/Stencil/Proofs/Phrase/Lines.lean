import Stencil.Proofs.Phrase.Reads

/-! # Reading bodies and control statements

    Bodies of statements and of raw lines, and the statements that begin with a
    keyword or are lines of text: each is read as its phrase is scanned and
    evaluated.  The statements inside one are given by a reader for which this is
    known (`ReadsPhrase`). -/

namespace Stencil.Parse

open Evaluate Phrase

variable {template : Template}

/-- Reading a statement is scanning and evaluating a phrase. -/
abbrev ReadsPhrase (template : Template) (reader : Parse Draft) (scan : Scan Phrase) : Prop :=
  Reads (fun node => [node.lineless]) reader scan (evaluate template)

/-- Reading a body is scanning and evaluating a phrase. -/
abbrev ReadsBody (template : Template) (reader : Parse (Block BlockId Draft))
    (scan : Scan Phrase) : Prop :=
  Reads (fun block => [.ofBlock block.lineless]) reader scan (evaluate template)

/-- A body of some phrases. -/
def bodyOf (template : Template) (phrases : List Phrase) : Evaluate (Block BlockId Draft) := do
  Evaluate.newBlock (← evaluateAll template phrases) {}

/-- Reading a body is scanning the phrases in it, and evaluating them. -/
abbrev ReadsLines (template : Template) (reader : Parse (Block BlockId Draft))
    (scan : Scan (List Phrase)) : Prop :=
  Reads Block.lineless reader scan (bodyOf template)

theorem evaluate_body (phrases : List Phrase) (props : BlockProps) :
    evaluate template (.make (.body props) phrases) = (do
      let nodes ← evaluateAll template phrases
      return [.ofBlock (← Evaluate.newBlock nodes props)]) := by
  rw [evaluate_make]
  rfl

/-- A node of a kind, made of its parts. -/
def nodeOf (kind : Kind Empty) (nodes : List Draft) : Evaluate (List Draft) := do
  return [← Evaluate.newNode (kind.relabel Empty.elim) nodes]

theorem evaluate_node (kind : Kind Empty) (parts : List Phrase) :
    evaluate template (.make (.node kind) parts) = evaluateAll template parts >>= nodeOf kind := by
  rw [evaluate_make]
  rfl

theorem reads_nodeOf (kind : Kind Empty) (line : Int) (blocks : List (Block BlockId Draft)) :
    Reads (fun node : Draft => [node.lineless]) (newNode line (kind.relabel Empty.elim) blocks)
      (pure ()) fun _ => nodeOf kind (blocks.map fun block => .ofBlock block.lineless) :=
  (reads_newNode line _ blocks none).lift (fun node => [node]) fun _ => rfl

/-! ## Bodies -/

section Phrases

variable {reader : Parse (Block BlockId Draft)} {scan : Scan (List Phrase)}

/-- What is in a body makes a phrase. -/
theorem ReadsLines.body (h : ReadsLines template reader scan) :
    ReadsBody template reader (do return .make (.body {}) (← scan)) := by
  have hlift := h.lift (fun block => [Node.ofBlock block]) fun _ => rfl
  refine hlift.map (Phrase.make (.body {})) fun phrases => ?_
  rw [evaluate_body, bodyOf]
  simp

/-- The body of a phrase may be marked. -/
theorem ReadsLines.marked (h : ReadsLines template reader scan) (props : BlockProps) :
    Reads (fun block : Block BlockId Draft => [Node.ofBlock { block.lineless with props }]) reader
      (do return .make (.body props) (← scan)) (evaluate template) := by
  have hlift := h.lift (fun block => [Node.ofBlock { block with props }]) fun _ => rfl
  refine hlift.map (Phrase.make (.body props)) fun phrases => ?_
  rw [evaluate_body, bodyOf]
  simp [Evaluate.newBlock]

end Phrases

/-- The end of a body, which gives the block. -/
theorem reads_closeBlock (template : Template) (line : Int) (nodes : List Draft) :
    Reads Block.lineless (do discard (expect template .outdent); newBlock line nodes) Scan.outdent
      fun _ => Evaluate.newBlock (nodes.map Node.lineless) {} := by
  simpa [Scan.outdent] using
    (lexical_outdent template).andThen fun _ => reads_newBlock line nodes {}

section Bodies

variable {inner : Parse Draft} {scan : Scan Phrase} (h : ReadsPhrase template inner scan)
include h

theorem reads_statementsWith (stop : TokenKind) (fuel : Nat) :
    Reads (List.map Node.lineless) (statementsWith template inner stop fuel)
      (Scan.statementsWith scan stop fuel) (evaluateAll template) := by
  induction fuel with
  | zero => exact reads_throw _
  | succ fuel ih =>
      refine (lexical_peek template).andThen fun token => .ite ?_ (.ite ?_ ?_)
      · exact reads_pure (evaluateAll_nil template)
      · exact (lexical_drop template).andThen fun _ => ih
      · have hmore : ∀ node : Draft, Reads (List.map Node.lineless)
            (do let nodes ← statementsWith template inner stop fuel; return node :: nodes)
            (Scan.statementsWith scan stop fuel) fun phrases => do
              return [node.lineless] ++ (← evaluateAll template phrases) := fun node =>
          ih.close (fun nodes => pure ([node.lineless] ++ nodes)) fun _ => reads_pure rfl
        exact h.bind List.cons
          (fun phrases nodes => do return nodes ++ (← evaluateAll template phrases)) hmore
          fun phrase phrases => evaluateAll_cons template phrase phrases

theorem reads_statements (stop : TokenKind) :
    Reads (List.map Node.lineless) (statements template inner stop)
      (Scan.statements scan stop) (evaluateAll template) :=
  (lexical_tokenBound template).andThen fun fuel => reads_statementsWith h stop fuel

theorem reads_indentedBlock :
    ReadsLines template (indentedBlock template inner) (Scan.indented scan) :=
  (lexical_expect .indent template).andThen fun token =>
    (reads_statements h .outdent).bind (fun phrases (_ : Unit) => phrases)
      (fun _ nodes => Evaluate.newBlock nodes {}) (reads_closeBlock template token.line)
        fun _ _ => rfl

/-- Reading a body is scanning and evaluating one. -/
theorem reads_body : ReadsBody template (indentedBlock template inner) (Scan.body scan) :=
  (reads_indentedBlock h).body

end Bodies

/-! ## Raw bodies -/

theorem evaluate_rawBody (lines : List Phrase) :
    evaluate template (.make .rawBody lines) = (do return (← bodyOf template lines).nodes) := by
  rw [evaluate_make, bodyOf]
  simp [Construct.begin, Construct.finish, Evaluate.newBlock]

theorem evaluate_leaf (kind : Kind Empty) :
    evaluate template (.make (.node kind) []) = nodeOf kind [] := by
  rw [evaluate_node, evaluateAll_nil]
  rfl

theorem reads_rawLinesWith {deeper : Parse (Block BlockId Draft)} {scan : Scan (List Phrase)}
    (h : ReadsLines template deeper scan) (indent fuel : Nat) :
    Reads (List.map Node.lineless) (rawLinesWith template deeper indent fuel)
      (Scan.rawLinesWith scan indent fuel) (evaluateAll template) := by
  induction fuel with
  | zero => exact reads_throw _
  | succ fuel ih =>
      have hmore : ∀ first : List Draft, Reads (List.map Node.lineless)
          (do return first ++ (← rawLinesWith template deeper indent fuel))
          (Scan.rawLinesWith scan indent fuel) fun phrases => do
            return first.map Node.lineless ++ (← evaluateAll template phrases) := fun first =>
        ih.close (fun nodes => pure (first.map Node.lineless ++ nodes)) fun _ =>
          reads_pure (congrArg pure List.map_append.symm)
      have hline : Reads (List.map Node.lineless)
          (do
            let line ← advance template
            let node ← newNode line.line
              (.text (String.ofList (List.replicate indent ' ') ++ line.value))
            let nodes ← rawLinesWith template deeper indent fuel
            return node :: nodes)
          (do
            let line ← Scan.of advance
            let phrases ← Scan.rawLinesWith scan indent fuel
            return .make (.node (.text
              (String.ofList (List.replicate indent ' ') ++ line.value))) [] :: phrases)
          (evaluateAll template) := by
        refine (lexical_advance template).andThen fun line => ?_
        have hfirst := (reads_newNode line.line
          (.text (String.ofList (List.replicate indent ' ') ++ line.value)) [] none).first
          (fun phrases node => do return [node] ++ (← evaluateAll template phrases))
          fun node => hmore [node]
        refine hfirst.map (fun phrases => .make (.node (.text
          (String.ofList (List.replicate indent ' ') ++ line.value))) [] :: phrases)
            fun phrases => ?_
        rw [evaluateAll_cons, evaluate_leaf]
        simp [nodeOf, Kind.relabel]
      refine (lexical_peek template).andThen fun token => ?_
      dsimp only
      cases token.kind with
      | outdent => exact reads_pure (evaluateAll_nil template)
      | newline => exact (lexical_drop template).andThen fun _ => ih
      | indent =>
          refine h.bind (fun lines phrases => .make .rawBody lines :: phrases)
            (fun phrases body => do return body.nodes ++ (← evaluateAll template phrases))
            (fun body => hmore body.nodes) fun lines phrases => ?_
          rw [evaluateAll_cons, evaluate_rawBody]
          simp
      | _ => exact hline

theorem reads_enterRaw (base : Nat) :
    Reads id (modify fun progress => { progress with rawBase := some base } : Parse PUnit)
      (modify (Cursor.enterRaw base)) pure :=
  reads_modify (fun _ => rfl) fun _ => rfl

theorem reads_leaveRaw (width : Nat) :
    Reads id
      (modify fun progress =>
        if progress.rawBase = some width then { progress with rawBase := none } else progress :
          Parse PUnit)
      (modify (Cursor.leaveRaw width)) pure := by
  refine reads_modify (fun progress => ?_) fun progress => ?_
  · show Progress.cursor (if progress.rawBase = some width then _ else _)
      = if progress.rawBase = some width then _ else _
    split <;> rfl
  · split <;> rfl

theorem reads_rawBlockWith (fuel : Nat) :
    ReadsLines template (rawBlockWith template fuel) (Scan.rawBodyWith fuel) := by
  induction fuel with
  | zero => exact reads_throw _
  | succ fuel ih =>
      refine (lexical_expect .indent template).andThen fun token => reads_get fun progress =>
        (reads_enterRaw _).andThen fun _ => (lexical_tokenBound template).andThen fun bound => ?_
      have hlines := fun indent => (reads_rawLinesWith ih indent bound).bind
        (fun lines (_ : Unit) => lines) (fun _ nodes => Evaluate.newBlock nodes {})
        (fun nodes => (reads_leaveRaw (indentWidth token)).andThen fun _ =>
          reads_closeBlock template token.line nodes) fun _ _ => rfl
      simp only [bind_assoc] at hlines
      exact hlines _

/-- Reading a raw body is scanning its lines, and evaluating them. -/
theorem reads_rawBlock : ReadsLines template (rawBlock template) Scan.rawBody := by
  refine (lexical_setMode .raw template).andThen fun _ =>
    (lexical_tokenBound template).andThen fun fuel => ?_
  have hclose : ∀ block : Block BlockId Draft, Reads Block.lineless
      (do setMode .markup; return block) (Scan.of fun _ => setMode .markup)
      fun _ => pure block.lineless := by
    intro block
    have hblock : Reads Block.lineless (pure block) (pure ()) fun _ => pure block.lineless :=
      reads_pure rfl
    simpa using (lexical_setMode .markup template).andThen fun _ => hblock
  exact (reads_rawBlockWith fuel).bind (fun lines (_ : Unit) => lines) (fun _ => pure) hclose
    fun _ _ => (bind_pure _).symm

/-! ## Control statements and other lines with a head -/

section Lines

/-- A node without parts. -/
theorem reads_leaf (kind : Kind Empty) (line : Int) :
    ReadsPhrase template (newNode line (kind.relabel Empty.elim))
      (pure (.make (.node kind) [])) := by
  refine .given ?_
  rw [evaluate_leaf]
  exact reads_nodeOf kind line []

/-- A node of a body. -/
theorem reads_nodeWith {reader : Parse (Block BlockId Draft)} {scan : Scan Phrase}
    (h : ReadsBody template reader scan) (kind : Kind Empty) (line : Int) :
    ReadsPhrase template
      (do let body ← reader; newNode line (kind.relabel Empty.elim) [body])
      (do return .make (.node kind) [← scan]) := by
  refine (h.close (nodeOf kind) fun body => reads_nodeOf kind line [body]).map
    (fun phrase => Phrase.make (.node kind) [phrase]) fun phrase => ?_
  rw [evaluate_node, evaluateAll_singleton]

theorem reads_textLine : ReadsPhrase template (textLine template) Scan.textLine :=
  (lexical_expect _ template).andThen fun token => reads_leaf (.text token.value) token.line

theorem reads_doctypeStatement :
    ReadsPhrase template (doctypeStatement template) Scan.doctypeStatement :=
  (lexical_expect _ template).andThen fun token => reads_leaf (.doctype _) token.line

theorem reads_yieldStatement :
    ReadsPhrase template (yieldStatement template) Scan.yieldStatement := by
  refine (lexical_expect _ template).andThen fun token => ?_
  have hmark : ∀ mark : Block BlockId Draft, Reads (fun node : Draft => [node.lineless])
      (pure (.ofBlock mark)) (pure ()) fun _ => pure [.ofBlock mark.lineless] := fun mark =>
    reads_pure (by rw [Node.lineless_ofBlock])
  refine .given ?_
  rw [evaluate_body, evaluateAll_nil]
  exact (reads_newBlock token.line [] { isYield := true }).close
    (fun mark => pure [Node.ofBlock mark]) hmark

theorem reads_filterStatement :
    ReadsPhrase template (filterStatement template) Scan.filterStatement := by
  refine (lexical_expect _ template).andThen fun token =>
    (lexical_peek template).andThen fun after => ?_
  have hbody : ∀ attributes : OrderedMap String AttributeValue, ReadsPhrase template
      (do
        let body ← rawBlock template
        newNode token.line (.filter token.value attributes) [body])
      (do
        let lines ← Scan.rawBody
        return .make (.node (.filter token.value attributes)) [.make (.body {}) lines]) := by
    intro attributes
    have hlines : ReadsLines template (rawBlock template) Scan.rawBody := reads_rawBlock
    have hnode := reads_nodeWith hlines.body (.filter token.value attributes) token.line
    simp only [bind_assoc, pure_bind] at hnode
    exact hnode
  exact .ite ((lexical_drop template).andThen fun _ => hbody _) (hbody _)

theorem codeKind_eq (token : Token) :
    codeKind token = (Scan.codeKind token).relabel Empty.elim := by
  rw [codeKind, Scan.codeKind]
  cases token.lexeme <;> rfl

theorem eachKind_eq (token : Token) :
    eachKind token = (Scan.eachKind token).relabel Empty.elim := by
  rw [eachKind, Scan.eachKind]
  cases token.lexeme <;> rfl

variable {inner : Parse Draft} {scan : Scan Phrase} (h : ReadsPhrase template inner scan)
include h

/-- A body of one statement. -/
theorem reads_single (line : Int) :
    ReadsBody template (do let node ← inner; newBlock line [node])
      (do return .make (.body {}) [← scan]) := by
  have hblock := fun node : Draft => (reads_newBlock line [node] {}).lift
    (fun block => [Node.ofBlock block]) fun _ => rfl
  refine (h.close (fun nodes => do
    return [Node.ofBlock (← Evaluate.newBlock nodes {})]) hblock).map
      (fun phrase => Phrase.make (.body {}) [phrase]) fun phrase => ?_
  rw [evaluate_body, evaluateAll_singleton]

theorem reads_armBody : ReadsBody template (armBody template inner) (Scan.armBody scan) :=
  (lexical_peek template).andThen fun token =>
    .ite ((lexical_drop template).andThen fun _ => reads_single h token.line) (reads_body h)

theorem reads_caseStatement :
    ReadsPhrase template (caseStatement template inner) (Scan.caseStatement scan) :=
  (lexical_expect _ template).andThen fun token =>
    reads_nodeWith (reads_body h) (.case token.value) token.line

theorem reads_whenStatement :
    ReadsPhrase template (whenStatement template inner) (Scan.whenStatement scan) :=
  (lexical_expect _ template).andThen fun token =>
    reads_nodeWith (reads_armBody h) (.when token.value) token.line

theorem reads_defaultStatement :
    ReadsPhrase template (defaultStatement template inner) (Scan.defaultStatement scan) :=
  (lexical_expect _ template).andThen fun token =>
    reads_nodeWith (reads_armBody h) (.when "default") token.line

theorem reads_codeStatement :
    ReadsPhrase template (codeStatement template inner) (Scan.codeStatement scan) := by
  refine (lexical_expect _ template).andThen fun token =>
    (lexical_tokenBound template).andThen fun bound =>
      (lexical_newlinesFrom bound 0 template).andThen fun breaks =>
        (lexical_peekAt breaks template).andThen fun after => ?_
  rw [codeKind_eq]
  exact .ite ((lexical_skip breaks template).andThen fun _ =>
    reads_nodeWith (reads_body h) _ token.line) (reads_leaf _ token.line)

theorem reads_commentStatement :
    ReadsPhrase template (commentStatement template inner) (Scan.commentStatement scan) :=
  (lexical_expect _ template).andThen fun token => (lexical_isAt _ template).andThen fun _ =>
    .ite (reads_nodeWith (reads_body h) (.blockComment token.value (isBuffered token)) token.line)
      (reads_leaf (.comment token.value (isBuffered token)) token.line)

theorem reads_eachStatement :
    ReadsPhrase template (eachStatement template inner) (Scan.eachStatement scan) := by
  refine (lexical_expect _ template).andThen fun token => ?_
  rw [eachKind_eq]
  generalize Scan.eachKind token = kind
  have hrest : ∀ body : Block BlockId Draft, Reads (fun node : Draft => [node.lineless])
      (do
        let after ← peek template
        if after.kind == .code && after.value == "else" then
          discard (advance template)
          let alternative ← indentedBlock template inner
          newNode token.line (kind.relabel Empty.elim) [body, alternative]
        else newNode token.line (kind.relabel Empty.elim) [body])
      (Scan.elseBody scan)
      (fun parts => evaluateAll template parts >>= fun nodes =>
        nodeOf kind (.ofBlock body.lineless :: nodes)) := by
    intro body
    refine (lexical_peek template).andThen fun after => .ite ?_ ?_
    · refine (lexical_drop template).andThen fun _ => ((reads_body h).close
        (fun nodes => nodeOf kind (.ofBlock body.lineless :: nodes)) fun alternative =>
          reads_nodeOf kind token.line [body, alternative]).map (fun phrase => [phrase])
            fun phrase => ?_
      rw [evaluateAll_singleton]
    · refine .given ?_
      rw [evaluateAll_nil]
      exact reads_nodeOf kind token.line [body]
  refine (reads_body h).bind
    (fun content alternative => Phrase.make (.node kind) (content :: alternative))
    (fun parts nodes => evaluateAll template parts >>= fun more => nodeOf kind (nodes ++ more))
    hrest fun content alternative => ?_
  rw [evaluate_node, evaluateAll_cons]
  simp

end Lines

end Stencil.Parse
