import Stencil.Proofs.Phrase.Lines

/-! # Reading elements

    A tag or a mixin call takes its parts one after the other: code or text on its
    line, an element behind a colon, a body.  An evaluation puts them into the
    element by the kind of node that comes of each (`Construct.place`), so it is
    kept of every reader which nodes it can give (`Returns`). -/

namespace Stencil.Parse

open Evaluate Phrase

variable {α β : Type} {template : Template}

/-- An element that is being read, without line numbers. -/
def OpenElement.lineless (opened : OpenElement) : OpenElement :=
  { opened with code := opened.code.map Node.lineless, body := opened.body.lineless }

/-- An element with parts put into it. -/
def filled (template : Template) (opened : OpenElement) (parts : List Phrase) :
    Evaluate OpenElement := do
  return (← evaluateAll template parts).foldl Construct.place opened

theorem place_element (opened : OpenElement) (element : Element) (node : Draft) :
    Construct.place { opened with element } node
      = { Construct.place opened node with element } := by
  unfold Construct.place
  cases node.block? with
  | none =>
      dsimp only
      split <;> rfl
  | some own =>
      show joinBody { opened with element } own = { joinBody opened own with element }
      unfold joinBody
      dsimp only
      split <;> rfl

theorem foldl_place_element (nodes : List Draft) (element : Element) : ∀ opened : OpenElement,
    nodes.foldl Construct.place { opened with element }
      = { nodes.foldl Construct.place opened with element } := by
  induction nodes with
  | nil => exact fun _ => rfl
  | cons node nodes ih =>
      intro opened
      rw [List.foldl_cons, List.foldl_cons, place_element, ih]

/-! ## Results -/

/-- What every successful run gives. -/
def Returns (reader : Parse α) (good : α → Prop) : Prop :=
  ∀ progress result after, reader progress = .ok result after → good result

theorem returns_pure {good : α → Prop} {result : α} (h : good result) :
    Returns (pure result) good := by
  rintro progress _ _ ⟨⟩
  exact h

theorem Returns.mono {reader : Parse α} {good better : α → Prop} (h : Returns reader good)
    (hmono : ∀ result, good result → better result) : Returns reader better :=
  fun _ _ _ hrun => hmono _ (h _ _ _ hrun)

theorem Returns.bind {reader : Parse α} {next : α → Parse β} {good : α → Prop} {goal : β → Prop}
    (h : Returns reader good) (hnext : ∀ result, good result → Returns (next result) goal) :
    Returns (reader >>= next) goal := by
  intro progress result after hrun
  obtain ⟨first, middle, hfirst, hrest⟩ := bind_eq_ok hrun
  exact hnext first (h _ _ _ hfirst) _ _ _ hrest

/-- What is given in the end is known, whatever comes before it. -/
theorem returns_bind {reader : Parse α} {next : α → Parse β} {goal : β → Prop}
    (h : ∀ result, Returns (next result) goal) : Returns (reader >>= next) goal :=
  have hreader : Returns reader fun _ => True := fun _ _ _ _ => trivial
  hreader.bind fun result _ => h result

/-- A new node is of the kind that was asked for. -/
theorem returns_newNode {line : Int} {kind : Kind BlockId} {blocks : List (Block BlockId Draft)}
    {code : Option Draft} :
    Returns (newNode line kind blocks code) fun node =>
      ∃ own children, node = .make own line kind children := by
  rintro progress _ _ ⟨⟩
  exact ⟨_, _, rfl⟩

theorem returns_newBlock {line : Int} {nodes : List Draft} {props : BlockProps} :
    Returns (newBlock line nodes props) fun block => block.nodes = nodes ∧ block.props = props := by
  rintro progress _ _ ⟨⟩
  exact ⟨rfl, rfl⟩

theorem returns_textLine :
    Returns (textLine template) fun node =>
      ∃ own line value children, node = .make own line (.text value) children :=
  returns_bind fun token => returns_newNode.mono fun _ ⟨own, children, hnode⟩ =>
    ⟨own, token.line, token.value, children, hnode⟩

theorem returns_codeStatement {inner : Parse Draft} :
    Returns (codeStatement template inner) fun node =>
      ∃ own line token children, node = .make own line (codeKind token) children := by
  refine returns_bind fun token => returns_bind fun bound => returns_bind fun breaks =>
    returns_bind fun after => ?_
  have hnode : ∀ blocks : List (Block BlockId Draft),
      Returns (newNode token.line (codeKind token) blocks) fun node =>
        ∃ own line token children, node = .make own line (codeKind token) children := fun blocks =>
    returns_newNode.mono fun _ ⟨own, children, hnode⟩ => ⟨own, token.line, token, children, hnode⟩
  split
  · exact returns_bind fun _ => returns_bind fun _ => hnode _
  · exact hnode _

/-- A raw body is marked with nothing. -/
theorem returns_rawBlock : Returns (rawBlock template) fun block => block.props = {} := by
  refine returns_bind fun _ => returns_bind fun fuel => ?_
  have hblock : Returns (rawBlockWith template fuel) fun block => block.props = {} := by
    cases fuel with
    | zero => rintro _ _ _ ⟨⟩
    | succ fuel =>
        exact returns_bind fun _ => returns_bind fun _ => returns_bind fun _ =>
          returns_bind fun _ => returns_bind fun _ => returns_bind fun _ =>
            returns_bind fun _ => returns_newBlock.mono fun _ hblock => hblock.2
  exact hblock.bind fun _ hprops => returns_bind fun _ => returns_pure hprops

/-! ## What is put into an element -/

/-- What was read is put into an element in the end. -/
theorem reads_placed {erase : α → List Draft} {reader : Parse α} {scan : Scan Phrase}
    (h : Reads erase reader scan (evaluate template)) (opened : OpenElement)
    (f : α → OpenElement) (hgood : Returns reader fun result =>
      (f result).lineless = (erase result).foldl Construct.place opened.lineless) :
    Reads OpenElement.lineless (do return f (← reader)) (do return [← scan])
      (filled template opened.lineless) := by
  have hpure : ∀ result, (f result).lineless
      = (erase result).foldl Construct.place opened.lineless →
        Reads OpenElement.lineless (pure (f result)) (pure ()) fun _ =>
          pure ((erase result).foldl Construct.place opened.lineless) :=
    fun _ hresult => reads_pure (congrArg pure hresult.symm)
  have hplace := h.bindGood (fun phrase (_ : Unit) => [phrase])
    (fun _ nodes => pure (nodes.foldl Construct.place opened.lineless)) hgood hpure
    fun phrase _ => show filled template opened.lineless [phrase] = _ by
      rw [filled, evaluateAll_singleton]
  simpa only [pure_bind] using hplace

theorem filled_nil (opened : OpenElement) : filled template opened [] = pure opened := by
  rw [filled, evaluateAll_nil]
  rfl

/-- A text goes behind what is on the line. -/
theorem place_text (opened : OpenElement) (own : Option BlockId) (line : Int) (value : String)
    (children : List Draft) :
    Construct.place opened (.make own line (.text value) children)
      = { opened with body := { opened.body with
            nodes := opened.body.nodes ++ [.make own line (.text value) children] } } :=
  rfl

/-- Code is kept apart. -/
theorem place_code (opened : OpenElement) (own : Option BlockId) (line : Int) (token : Token)
    (children : List Draft) :
    Construct.place opened (.make own line (codeKind token) children)
      = { opened with code := some (.make own line (codeKind token) children) } := by
  unfold codeKind
  cases token.lexeme <;> rfl

/-- A body goes behind what is on the line. -/
theorem place_ofBlock (opened : OpenElement) (block : Block BlockId Draft) :
    Construct.place opened (.ofBlock block) = joinBody opened block :=
  rfl

theorem isEmpty_lineless (opened : OpenElement) :
    opened.lineless.body.nodes.isEmpty = opened.body.nodes.isEmpty := by
  show (opened.body.nodes.map Node.lineless).isEmpty = _
  rw [List.isEmpty_map]

theorem lineless_joinBody (opened : OpenElement) (body : Block BlockId Draft) :
    (joinBody opened body).lineless = joinBody opened.lineless body.lineless := by
  unfold joinBody
  rw [isEmpty_lineless]
  split
  · rfl
  · simp [OpenElement.lineless, Block.lineless]

/-- What follows the name of an element leaves its attributes as they are. -/
theorem returns_readLineContent {inner : Parse Draft} (opened : OpenElement) :
    Returns (readLineContent template inner opened) fun result =>
      result.element = opened.element := by
  refine returns_bind fun token => ?_
  dsimp only
  cases token.kind with
  | text => exact returns_bind fun _ => returns_pure rfl
  | code => exact returns_bind fun _ => returns_pure rfl
  | colon =>
      exact returns_bind fun _ => returns_bind fun _ => returns_bind fun _ => returns_pure rfl
  | _ => exact returns_pure rfl

/-- The element that is opened with its attributes, with its parts put into it. -/
def openedWith (template : Template) : Element × List Phrase → Evaluate OpenElement
  | (element, parts) => do
      let body ← Evaluate.newBlock [] {}
      filled template { element, body } parts

theorem filled_append (opened : OpenElement) (element : Element) (parts more : List Phrase) :
    filled template { opened with element } (parts ++ more)
      = filled template opened parts >>= fun opened =>
          filled template { opened with element } more := by
  simp [filled, evaluateAll_append, foldl_place_element]

/-- A new node, with code and blocks as its parts. -/
theorem reads_closing (line : Int) (kind : Kind BlockId) (blocks : List (Block BlockId Draft))
    (code : Option Draft) :
    Reads (fun node : Draft => [node.lineless]) (newNode line kind blocks code) (pure ())
      fun _ => do
        return [← Evaluate.newNode kind ((code.map Node.lineless).toList
          ++ blocks.map fun block => .ofBlock block.lineless)] := by
  have hcode : (code.map Node.lineless).toList = code.toList.map Node.lineless := by
    cases code <;> rfl
  rw [hcode]
  exact (reads_newNode line kind blocks code).lift (fun node => [node]) fun _ => rfl

section Elements

variable {inner : Parse Draft} {scan : Scan Phrase} (h : ReadsPhrase template inner scan)
include h

theorem reads_readLineContent {opened : OpenElement} (hempty : opened.body.nodes = []) :
    Reads OpenElement.lineless (readLineContent template inner opened) (Scan.lineContent scan)
      (filled template opened.lineless) := by
  refine (lexical_peek template).andThen fun token => ?_
  dsimp only
  cases token.kind with
  | text =>
      refine reads_placed reads_textLine opened (fun text => { opened with
        body := { opened.body with nodes := opened.body.nodes ++ [text] } })
        (returns_textLine.mono ?_)
      rintro _ ⟨own, line, value, children, rfl⟩
      simp only [Node.lineless_make, List.foldl_cons, List.foldl_nil, place_text]
      simp [OpenElement.lineless, Block.lineless, Node.lineless_make]
  | code =>
      refine reads_placed (reads_codeStatement h) opened
        (fun node => { opened with code := some node }) (returns_codeStatement.mono ?_)
      rintro _ ⟨own, line, token, children, rfl⟩
      simp only [Node.lineless_make, List.foldl_cons, List.foldl_nil, place_code]
      simp [OpenElement.lineless, Node.lineless_make]
  | colon =>
      refine (lexical_drop template).andThen fun _ => ?_
      have hbody := reads_placed (reads_single h token.line) opened
        (fun body => { opened with body }) fun _ body _ _ => by
          simp only [List.foldl_cons, List.foldl_nil, place_ofBlock]
          rw [joinBody, if_pos (by simp [OpenElement.lineless, Block.lineless, hempty])]
          rfl
      simpa only [bind_assoc, pure_bind] using hbody
  | _ => exact reads_pure (filled_nil _)

theorem reads_readBody (opened : OpenElement) :
    Reads OpenElement.lineless (readBody template inner opened)
      (Scan.elementBody scan opened.element.textOnly) (filled template opened.lineless) := by
  refine (lexical_isAt _ template).andThen fun _ => .ite (.ite ?_ ?_) (reads_pure (filled_nil _))
  · have hlines : ReadsLines template (rawBlock template) Scan.rawBody := reads_rawBlock
    have hraw := reads_placed (hlines.marked { textOnly := true }) opened
      (fun body => joinBody opened { body with props := { body.props with textOnly := true } })
      (returns_rawBlock.mono fun body hprops => by
        simp only [List.foldl_cons, List.foldl_nil, place_ofBlock, lineless_joinBody]
        rw [Block.lineless, Block.lineless, hprops])
    simpa only [bind_assoc, pure_bind] using hraw
  · exact reads_placed (reads_body h) opened (joinBody opened) fun _ body _ _ =>
      lineless_joinBody opened body

theorem reads_readElement (element : Element) :
    Reads OpenElement.lineless (readElement template inner element)
      (Scan.elementParts scan element) (openedWith template) := by
  -- the parts are put into an element that is marked as raw text only after the content of its line
  have hparts : ∀ body : Block BlockId Draft, body.nodes = [] →
      Reads OpenElement.lineless
        (do
          let element ← readAttributes template element
          let dot ← takeDot template
          let opened ← readLineContent template inner { element, body }
          skipNewlines template
          let element := { opened.element with textOnly := hasRawBody opened.element dot }
          readBody template inner { opened with element })
        (Scan.elementParts scan element)
        fun head => filled template { element := head.1, body := body.lineless } head.2 := by
    intro body hempty
    refine (lexical_readAttributes element template).andThen fun element =>
      (lexical_takeDot template).andThen fun dot => ?_
    let head := { element with textOnly := hasRawBody element dot }
    have hrest : ∀ opened : OpenElement, opened.element = element →
        Reads OpenElement.lineless
          (do
            skipNewlines template
            let element := { opened.element with textOnly := hasRawBody opened.element dot }
            readBody template inner { opened with element })
          (do Scan.of skipNewlines; Scan.elementBody scan head.textOnly)
          (filled template { opened.lineless with element := head }) := by
      intro opened hsame
      rw [hsame]
      exact (lexical_skipNewlines template).andThen fun _ =>
        reads_readBody h { opened with element := head }
    suffices hcontent : Reads OpenElement.lineless _
        (Scan.lineContent scan >>= fun content =>
          (do Scan.of skipNewlines; Scan.elementBody scan head.textOnly) >>= fun own =>
            pure (head, content ++ own))
        fun head => filled template { element := head.1, body := body.lineless } head.2 by
      simpa only [bind_assoc] using hcontent
    exact (reads_readLineContent h hempty).bindGood (fun content own => (head, content ++ own))
      (fun own opened => filled template { opened with element := head } own)
      (returns_readLineContent { element, body }) hrest
      (filled_append { element, body := body.lineless } head)
  have hopened := (reads_newBlock 0 [] {}).bindGood (fun _ parts => parts)
    (fun head body => filled template { element := head.1, body } head.2)
    (returns_newBlock.mono fun _ hblock => hblock.1) hparts
    fun _ head => show openedWith template head = _ from rfl
  simp only [pure_bind, bind_pure] at hopened
  exact hopened

/-- An element with everything that follows its name, made a node. -/
theorem reads_elementWith (role : Role) (element : Element) {close : OpenElement → Parse Draft}
    (hclose : ∀ opened, Reads (fun node => [node.lineless]) (close opened) (pure ()) fun _ =>
      (do return [← Construct.closeElement role opened.lineless])) :
    ReadsPhrase template (do let opened ← readElement template inner element; close opened)
      (Scan.elementWith scan role element) := by
  refine ((reads_readElement h element).close
    (fun opened => do return [← Construct.closeElement role opened]) hclose).map
      (fun head => Phrase.make (.element head.1 role) head.2) fun head => ?_
  rw [evaluate_make, openedWith]
  simp [Construct.begin, Construct.finish, filled]

theorem reads_tagStatement :
    ReadsPhrase template (tagStatement template inner) (Scan.tagStatement scan) :=
  (lexical_expect _ template).andThen fun token => reads_elementWith h (.tag false) _ fun opened =>
    reads_closing token.line (.tag opened.element false) [opened.body] opened.code

theorem reads_interpolatedStatement :
    ReadsPhrase template (interpolatedStatement template inner)
      (Scan.interpolatedStatement scan) :=
  (lexical_expect _ template).andThen fun token => reads_elementWith h (.tag true) _ fun opened =>
    reads_closing token.line (.tag opened.element true) [opened.body] opened.code

theorem reads_callStatement :
    ReadsPhrase template (callStatement template inner) (Scan.callStatement scan) := by
  refine (lexical_expect _ template).andThen fun token =>
    reads_elementWith h (.call (argsOf token)) _ fun opened => ?_
  have hbody : (if opened.lineless.body.nodes.isEmpty then []
      else [Node.ofBlock opened.lineless.body])
        = (if opened.body.nodes.isEmpty then [] else [opened.body]).map fun block =>
          .ofBlock block.lineless := by
    rw [isEmpty_lineless]
    split <;> rfl
  rw [Construct.closeElement, hbody]
  exact reads_closing token.line (.mixin opened.element (argsOf token) true) _ opened.code

theorem reads_shorthandStatement :
    ReadsPhrase template (shorthandStatement template inner) (Scan.shorthandStatement scan) :=
  (lexical_advance template).andThen fun _ => (lexical_defer _ template).andThen fun _ => h

end Elements

end Stencil.Parse
