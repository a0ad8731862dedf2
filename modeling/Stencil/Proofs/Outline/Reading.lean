import Stencil.Proofs.Grammar.Gives
import Stencil.Proofs.Node.Preorder
import Stencil.Proofs.Outline.Scanning

/-! # Reading an outline — from tokens to trees

    A statement is read from its own line on: it takes the tokens of the lines
    below it and leaves those of the lines after it, without the `outdent`s that
    close its own body (`leaving`).  Where it has no body, the line break after
    it may be left as well (`Follows`); whoever reads on takes it.

    `ReadsAs` says this of a reader and an outline, for every place in a
    document.  A loop over statements joins it for a list
    (`gives_statementsWith`), an indented body adds the levels around the list
    (`gives_indentedBlock`), and each production adds its own line.  The whole
    grammar then follows by induction on the fuel (`readsAs_statementWith`). -/

namespace Stencil

/-! ## Finished nodes -/

namespace Node

variable {ι : Type}

theorem finished_make (own : Option ι) (line : Int) (kind : Kind ι) (children : List (Node ι)) :
    (make own line kind children).finished
      = .mk line (kind.relabel fun _ => ()) (children.map finished) := by
  rw [finished, fold, foldList_eq_map]
  rfl

theorem finished_ofBlock (block : Block ι (Node ι)) :
    (ofBlock block).finished
      = .mk block.line (.block () block.props) (block.nodes.map finished) :=
  finished_make none block.line (.block block.id block.props) block.nodes

end Node

namespace Outline

open Parse

variable (unit : IndentUnit) (final : Bool)

/-! ## What a statement leaves -/

/-- The tokens of the lines after a statement, from the end of its last line on, when everything
    deeper than the statement is closed. -/
def leaving (line depth : Nat) : List Row → List Token
  | [] => closing (lastLine final line) depth ++ [.bare .eos (lastLine final line)]
  | row :: rows =>
      closing (line + 1) (depth - row.depth) ++ ⟨(line + 1 : Nat), row.head.lexeme⟩
        :: stream unit final (line + 1) row.depth rows

/-- The tokens after a statement, which may start with a line break. -/
def Follows (tokens : List Token) (line depth : Nat) (rows : List Row) : Prop :=
  tokens = leaving unit final line depth rows
    ∨ ∃ number, tokens = .bare .newline number :: leaving unit final line depth rows

/-- The next line is not deeper. -/
def Shallow (depth : Nat) (rows : List Row) : Prop := ∀ row ∈ rows.head?, row.depth ≤ depth

/-- The next line is not deeper, and no `else` of the same depth. -/
def Closed (depth : Nat) (rows : List Row) : Prop :=
  ∀ row ∈ rows.head?, row.depth ≤ depth ∧ (row.depth = depth → row.head ≠ .otherwise)

theorem Closed.shallow {depth : Nat} {rows : List Row} (h : Closed depth rows) :
    Shallow depth rows := fun row hrow => (h row hrow).1

theorem Shallow.closed_succ {depth : Nat} {rows : List Row} (h : Shallow depth rows) :
    Closed (depth + 1) rows := fun row hrow =>
  ⟨Nat.le_succ_of_le (h row hrow), fun he => absurd (h row hrow) (by omega)⟩

theorem head_ne_otherwise (outline : Outline) : outline.head ≠ .otherwise := by
  cases outline with
  | arm value first body => cases value <;> exact fun h => nomatch h
  | _ => exact fun h => nomatch h

theorem rows_cons_append (depth : Nat) (outline : Outline) (outlines : List Outline)
    (rest : List Row) :
    rows depth (outline :: outlines) ++ rest
      = ⟨depth, outline.head⟩ :: (rowsBelow depth outline ++ (rows depth outlines ++ rest)) := by
  simp [rows]

/-- The next line of a list of statements, or that of what follows them. -/
theorem closed_rows {depth : Nat} {rest : List Row} (h : Closed depth rest)
    (outlines : List Outline) : Closed depth (rows depth outlines ++ rest) := by
  cases outlines with
  | nil => exact h
  | cons outline outlines =>
      rintro row ⟨rfl⟩
      exact ⟨Nat.le_refl _, fun _ => head_ne_otherwise outline⟩

variable {unit final} {line depth : Nat} {rest : List Row} {tokens : List Token}

theorem follows_stream (unit : IndentUnit) (final : Bool) (line : Nat) (h : Shallow depth rest) :
    Follows unit final (stream unit final line depth rest) line depth rest := by
  cases rest with
  | nil =>
      cases final with
      | true => exact Or.inr ⟨_, rfl⟩
      | false => exact Or.inl rfl
  | cons row rows =>
      have hle : row.depth ≤ depth := h row rfl
      rw [Follows, stream, leaving, between]
      rcases Nat.lt_or_eq_of_le hle with hlt | heq
      · exact Or.inl (by rw [if_pos hlt])
      · refine Or.inr ⟨(line + 1 : Nat), ?_⟩
        rw [if_neg (by omega), if_neg (by omega), heq, Nat.sub_self]
        rfl

/-- A body of statements starts with an `indent`. -/
theorem stream_deeper (outline : Outline) (outlines : List Outline) :
    stream unit final line depth (rows (depth + 1) (outline :: outlines) ++ rest)
      = ⟨(line + 1 : Nat), .indent ((depth + 1) * unit.width)⟩
        :: leaving unit final line (depth + 1)
          (rows (depth + 1) (outline :: outlines) ++ rest) := by
  have hdeeper : depth < depth + 1 := Nat.lt_succ_self depth
  rw [rows_cons_append, stream, leaving, between, if_neg (Nat.lt_asymm hdeeper),
    if_pos hdeeper, Nat.sub_self]
  rfl

/-- A body ends with an `outdent`. -/
theorem leaving_succ (h : Shallow depth rest) :
    ∃ number, leaving unit final line (depth + 1) rest
      = .bare .outdent number :: leaving unit final line depth rest := by
  cases rest with
  | nil => exact ⟨lastLine final line, rfl⟩
  | cons row rows =>
      have hle : row.depth ≤ depth := h row rfl
      refine ⟨(line + 1 : Nat), ?_⟩
      rw [leaving, leaving, Nat.succ_sub hle]
      rfl

/-- The kinds of token that start a line. -/
def lineKinds : List TokenKind :=
  [.tag, .text, .code, .each, .case, .when, .default, .comment]

/-- The kinds of token that can follow a statement behind a line break. -/
def followingKinds : List TokenKind := .outdent :: .eos :: lineKinds

theorem ne_of_mem_kinds {kinds : List TokenKind} {kind other : TokenKind} (h : kind ∈ kinds)
    (hother : other ∉ kinds) : kind ≠ other := fun he => hother (he ▸ h)

theorem kind_lexeme_mem (head : Head) : head.lexeme.kind ∈ lineKinds := by
  cases head <;> simp [Head.lexeme, Lexeme.kind, lineKinds]

/-- What is left starts with a line, or ends a body or the text. -/
theorem leaving_eq_cons (unit : IndentUnit) (final : Bool) (line depth : Nat) (rest : List Row) :
    ∃ token tokens, leaving unit final line depth rest = token :: tokens
      ∧ token.kind ∈ followingKinds := by
  cases rest with
  | nil =>
      cases depth with
      | zero => exact ⟨_, _, rfl, by simp [Token.bare, Token.kind, Lexeme.kind, followingKinds]⟩
      | succ depth =>
          exact ⟨_, _, rfl, by simp [Token.bare, Token.kind, Lexeme.kind, followingKinds]⟩
  | cons row rows =>
      rw [leaving]
      cases depth - row.depth with
      | zero =>
          refine ⟨_, _, rfl, List.mem_cons_of_mem _ (List.mem_cons_of_mem _ ?_)⟩
          exact kind_lexeme_mem row.head
      | succ count =>
          exact ⟨_, _, rfl, by simp [Token.bare, Token.kind, Lexeme.kind, followingKinds]⟩

/-! ## Statements -/

/-- A reader takes the lines of an outline for its tree, wherever they stand. -/
def ReadsAs (unit : IndentUnit) (final : Bool) (reader : Parse Draft) (outline : Outline) : Prop :=
  ∀ (line depth : Nat) (rest : List Row), Closed depth rest →
    Gives reader
      (⟨(line + 1 : Nat), outline.head.lexeme⟩
        :: stream unit final (line + 1) depth (outline.rowsBelow depth ++ rest))
      fun draft left => draft.finished = outline.tree (line + 1)
        ∧ Follows unit final left (line + outline.lines) depth rest
        ∧ left <:+ stream unit final (line + 1) depth (outline.rowsBelow depth ++ rest)

variable {template : Template} {inner : Parse Draft}

theorem countOpen_le_of_suffix {left : List Token} (h : left <:+ tokens) :
    Lexer.countOpen left ≤ Lexer.countOpen tokens :=
  (h.filter _).length_le

section Loop

variable {stop : TokenKind} {fuel : Nat} {token : Token} {good : List Draft → List Token → Prop}

/-- A loop over statements stops before a token of the kind that ends them. -/
theorem gives_statementsWith_stop (hstop : token.kind = stop) (h : good [] (token :: tokens)) :
    Gives (statementsWith template inner stop (fuel + 1)) (token :: tokens) good := by
  refine gives_peek ?_
  rw [if_pos (beq_iff_eq.mpr hstop)]
  exact gives_pure h

/-- A loop over statements drops a line break. -/
theorem gives_statementsWith_newline (hne : token.kind ≠ stop) (hbreak : token.kind = .newline)
    (h : Gives (statementsWith template inner stop fuel) tokens good) :
    Gives (statementsWith template inner stop (fuel + 1)) (token :: tokens) good := by
  refine gives_peek ?_
  rw [if_neg (by simpa using hne), if_pos (beq_iff_eq.mpr hbreak)]
  exact gives_drop h

/-- Before any other token, a loop over statements reads one of them. -/
theorem gives_statementsWith_statement {m : Draft → List Token → Prop} (hne : token.kind ≠ stop)
    (hbreak : token.kind ≠ .newline) (h : Gives inner (token :: tokens) m)
    (hmore : ∀ node left, m node left → Gives (statementsWith template inner stop fuel) left
      fun nodes last => good (node :: nodes) last) :
    Gives (statementsWith template inner stop (fuel + 1)) (token :: tokens) good := by
  refine gives_peek ?_
  rw [if_neg (by simpa using hne), if_neg (by simpa using hbreak)]
  exact h.bind fun node left hm => (hmore node left hm).bind fun nodes last => gives_pure

end Loop

/-- **A loop over statements** takes all their lines, and stops before the token that ends the
    body or the text. -/
theorem gives_statementsWith {stop : TokenKind} (hstop : stop = .outdent ∨ stop = .eos)
    (hrest : Closed depth rest) (fuel : Nat) :
    ∀ (outlines : List Outline) (line : Nat) (tokens : List Token),
      (∀ outline ∈ outlines, ReadsAs unit final inner outline) →
      (∃ token left, leaving unit final (line + linesAll outlines) depth rest = token :: left
        ∧ token.kind = stop) →
      Follows unit final tokens line depth (rows depth outlines ++ rest) →
      Lexer.countOpen tokens < fuel →
      Gives (statementsWith template inner stop fuel) tokens fun nodes left =>
        nodes.map Node.finished = trees (line + 1) outlines
          ∧ left = leaving unit final (line + linesAll outlines) depth rest := by
  induction fuel with
  | zero => intro outlines line tokens _ _ _ hfuel; exact absurd hfuel (Nat.not_lt_zero _)
  | succ fuel ih =>
      intro outlines line tokens hreads hend hfollows hfuel
      rcases hfollows with rfl | ⟨number, rfl⟩
      · -- the next line starts a statement, or what ends them comes
        cases outlines with
        | nil =>
            obtain ⟨token, left, hleft, hkind⟩ := hend
            replace hleft : leaving unit final line depth rest = token :: left := hleft
            show Gives _ (leaving unit final line depth rest) fun (nodes : List Draft) last =>
              nodes.map Node.finished = trees (line + 1) []
                ∧ last = leaving unit final line depth rest
            rw [hleft]
            exact gives_statementsWith_stop hkind ⟨rfl, rfl⟩
        | cons outline outlines =>
            have hkind := kind_lexeme_mem outline.head
            have hstart : leaving unit final line depth
                (rows depth (outline :: outlines) ++ rest)
                = ⟨(line + 1 : Nat), outline.head.lexeme⟩
                  :: stream unit final (line + 1) depth
                    (outline.rowsBelow depth ++ (rows depth outlines ++ rest)) := by
              rw [rows_cons_append, leaving, Nat.sub_self]
              rfl
            have hopen : (⟨(line + 1 : Nat), outline.head.lexeme⟩ : Token).kind ≠ .eos :=
              ne_of_mem_kinds hkind (by decide)
            have hne : outline.head.lexeme.kind ≠ stop := by
              refine ne_of_mem_kinds hkind ?_
              rcases hstop with rfl | rfl <;> decide
            have hnewline : outline.head.lexeme.kind ≠ .newline :=
              ne_of_mem_kinds hkind (by decide)
            rw [hstart] at hfuel ⊢
            rw [Lexer.countOpen_cons_of_ne hopen] at hfuel
            have hclosed : Closed depth (rows depth outlines ++ rest) := closed_rows hrest outlines
            refine gives_statementsWith_statement hne hnewline
              (hreads outline List.mem_cons_self line depth _ hclosed) ?_
            -- the others start on the line behind those of the first one
            rintro node left ⟨hnode, hfollows, hsuffix⟩
            have hlines : line + outline.lines + linesAll outlines
                = line + linesAll (outline :: outlines) := Nat.add_assoc _ _ _
            have hleft := countOpen_le_of_suffix hsuffix
            rw [← hlines] at hend ⊢
            refine Gives.imp (ih outlines (line + outline.lines) left
              (fun other hother => hreads other (List.mem_cons_of_mem _ hother)) hend hfollows
              (by omega)) ?_
            rintro nodes last ⟨hnodes, hlast⟩
            refine ⟨?_, hlast⟩
            rw [List.map_cons, hnode, hnodes, trees, Nat.add_right_comm]
      · -- a line break stands before it
        have hne : TokenKind.newline ≠ stop := by
          rcases hstop with rfl | rfl <;> decide
        rw [Lexer.countOpen_cons_of_ne (by exact fun h => nomatch h)] at hfuel
        exact gives_statementsWith_newline hne rfl
          (ih outlines line _ hreads hend (Or.inl rfl) (by omega))

theorem gives_statements (template : Template) (line : Nat) {stop : TokenKind}
    (hstop : stop = .outdent ∨ stop = .eos)
    (hrest : Closed depth rest) {outlines : List Outline}
    (hreads : ∀ outline ∈ outlines, ReadsAs unit final inner outline)
    (hend : ∃ token left, leaving unit final (line + linesAll outlines) depth rest = token :: left
      ∧ token.kind = stop) :
    Gives (statements template inner stop)
      (leaving unit final line depth (rows depth outlines ++ rest)) fun nodes left =>
        nodes.map Node.finished = trees (line + 1) outlines
          ∧ left = leaving unit final (line + linesAll outlines) depth rest :=
  gives_tokenBound fun bound hbound =>
    gives_statementsWith hstop hrest bound outlines line _ hreads hend (Or.inl rfl) hbound

/-- **An indented body** takes the lines of its statements and what closes it. -/
theorem gives_indentedBlock (template : Template) {first : Outline} {outlines : List Outline}
    (hreads : ∀ outline ∈ first :: outlines, ReadsAs unit final inner outline)
    (hrest : Shallow depth rest) (line : Nat) :
    Gives (indentedBlock template inner)
      (stream unit final line depth (rows (depth + 1) (first :: outlines) ++ rest))
      fun block left =>
        (Node.ofBlock block).finished
            = bodyAt (line + 1) (trees (line + 1) (first :: outlines))
          ∧ left = leaving unit final (line + linesAll (first :: outlines)) depth rest := by
  rw [stream_deeper]
  obtain ⟨number, hend⟩ : ∃ number,
      leaving unit final (line + linesAll (first :: outlines)) (depth + 1) rest
        = .bare .outdent number
          :: leaving unit final (line + linesAll (first :: outlines)) depth rest :=
    leaving_succ hrest
  refine gives_expect rfl (Gives.bind
    (gives_statements template line (Or.inl rfl) hrest.closed_succ hreads
    ⟨_, _, hend, rfl⟩) ?_)
  rintro nodes left ⟨hnodes, rfl⟩
  rw [hend]
  refine gives_dropExpected rfl (gives_newBlock fun id => ⟨?_, rfl⟩)
  rw [Node.finished_ofBlock, hnodes]
  rfl

/-! ## Productions -/

theorem Gives.withSuffix {α : Type} {reader : Parse α} {first second : α → List Token → Prop}
    (h : Gives reader tokens fun result left => first result left ∧ second result left) :
    Gives reader tokens fun result left =>
      first result left ∧ second result left ∧ left <:+ tokens :=
  h.suffix.imp fun _ _ hgood => ⟨hgood.1.1, hgood.1.2, hgood.2⟩

theorem readsAs_text (content : Content) :
    ReadsAs unit final (statementStep template inner) (.text content) := by
  intro line depth rest hrest
  refine gives_peek (gives_expect rfl (Gives.withSuffix (gives_newNode fun id => ⟨?_, ?_⟩)))
  · rw [Node.finished_make]
    rfl
  · exact follows_stream unit final (line + 1) hrest.shallow

/-- A node with one body, read from the line after that of the node. -/
theorem gives_bodied (number : Int) (kind : Kind BlockId) {first : Outline}
    {outlines : List Outline} {body : Parse (Block BlockId Draft)}
    (hbody : Gives body
      (stream unit final line depth (rows (depth + 1) (first :: outlines) ++ rest))
      fun block left =>
        (Node.ofBlock block).finished
            = bodyAt (line + 1) (trees (line + 1) (first :: outlines))
          ∧ left = leaving unit final (line + linesAll (first :: outlines)) depth rest) :
    Gives (body >>= fun block => newNode number kind [block])
      (stream unit final line depth (rows (depth + 1) (first :: outlines) ++ rest))
      fun draft left =>
        draft.finished = .mk number (kind.relabel fun _ => ())
            [bodyAt (line + 1) (trees (line + 1) (first :: outlines))]
          ∧ Follows unit final left (line + linesAll (first :: outlines)) depth rest := by
  refine Gives.bind hbody ?_
  rintro block left ⟨hblock, rfl⟩
  refine gives_newNode fun id => ⟨?_, Or.inl rfl⟩
  rw [Node.finished_make]
  exact congrArg (fun body => Node.mk _ _ [body]) hblock

/-- The last line of a statement, counted from its own line or from the one before it. -/
theorem Follows.shift {left : List Token} {last : Nat} (h : Follows unit final left last depth rest)
    (heq : last = line) : Follows unit final left line depth rest := heq ▸ h

theorem readsAs_case (subject : Expression) {first : Outline} {arms : List Outline}
    (hinner : ∀ outline ∈ first :: arms, ReadsAs unit final inner outline) :
    ReadsAs unit final (statementStep template inner) (.case subject first arms) := by
  intro line depth rest hrest
  refine gives_peek (gives_expect rfl (Gives.withSuffix ?_))
  refine (gives_bodied _ _ (gives_indentedBlock template hinner hrest.shallow (line + 1))).imp ?_
  rintro draft left ⟨hdraft, hleft⟩
  refine ⟨hdraft, hleft.shift ?_⟩
  simp only [linesAll, lines]
  omega

theorem gives_armBody {first : Outline} {outlines : List Outline}
    (hinner : ∀ outline ∈ first :: outlines, ReadsAs unit final inner outline)
    (hrest : Shallow depth rest) (line : Nat) :
    Gives (armBody template inner)
      (stream unit final line depth (rows (depth + 1) (first :: outlines) ++ rest))
      fun block left =>
        (Node.ofBlock block).finished
            = bodyAt (line + 1) (trees (line + 1) (first :: outlines))
          ∧ left = leaving unit final (line + linesAll (first :: outlines)) depth rest := by
  have hblock := gives_indentedBlock template hinner hrest line
  rw [stream_deeper] at hblock ⊢
  exact gives_peek hblock

theorem readsAs_arm (value : Option ArmExpression) {first : Outline} {body : List Outline}
    (hinner : ∀ outline ∈ first :: body, ReadsAs unit final inner outline) :
    ReadsAs unit final (statementStep template inner) (.arm value first body) := by
  intro line depth rest hrest
  have hlines : line + 1 + linesAll (first :: body) = line + (arm value first body).lines := by
    simp only [linesAll, lines]
    omega
  cases value with
  | none =>
      refine gives_peek (gives_expect rfl (Gives.withSuffix ?_))
      refine (gives_bodied _ _ (gives_armBody hinner hrest.shallow (line + 1))).imp ?_
      rintro draft left ⟨hdraft, hleft⟩
      exact ⟨hdraft, hleft.shift hlines⟩
  | some value =>
      refine gives_peek (gives_expect rfl (Gives.withSuffix ?_))
      refine (gives_bodied _ _ (gives_armBody hinner hrest.shallow (line + 1))).imp ?_
      rintro draft left ⟨hdraft, hleft⟩
      exact ⟨hdraft, hleft.shift hlines⟩

/-- What follows a statement starts with no `indent`. -/
theorem Follows.eq_cons (h : Follows unit final tokens line depth rest) :
    ∃ token left, tokens = token :: left ∧ token.kind ≠ .indent := by
  rcases h with rfl | ⟨number, rfl⟩
  · obtain ⟨token, left, hleft, hkind⟩ := leaving_eq_cons unit final line depth rest
    exact ⟨token, left, hleft, ne_of_mem_kinds hkind (by decide)⟩
  · exact ⟨_, _, rfl, fun h => nomatch h⟩

theorem readsAs_comment (note : Note) {body : List Outline}
    (hinner : ∀ outline ∈ body, ReadsAs unit final inner outline) :
    ReadsAs unit final (statementStep template inner) (.comment note body) := by
  intro line depth rest hrest
  refine gives_peek (gives_expect rfl (Gives.withSuffix ?_))
  cases body with
  | nil =>
      have hfollows := follows_stream unit final (line + 1) hrest.shallow
      show Gives _ (stream unit final (line + 1) depth rest) _
      obtain ⟨token, left, hleft, hkind⟩ := hfollows.eq_cons
      rw [hleft] at hfollows ⊢
      refine gives_isAt ?_
      rw [if_neg (by simpa using hkind)]
      refine gives_newNode fun id => ⟨?_, hfollows⟩
      rw [Node.finished_make]
      rfl
  | cons first others =>
      have hbody := gives_bodied (line + 1 : Nat) (.blockComment note.text true)
        (gives_indentedBlock template hinner hrest.shallow (line + 1))
      show Gives _ (stream unit final (line + 1) depth
        (rows (depth + 1) (first :: others) ++ rest)) _
      rw [stream_deeper] at hbody ⊢
      refine gives_isAt (hbody.imp ?_)
      rintro draft left ⟨hdraft, hleft⟩
      refine ⟨hdraft, hleft.shift ?_⟩
      simp only [linesAll, lines]
      omega

/-- Counting line breaks stops at a token that is none. -/
theorem gives_newlinesFrom {token : Token} {offset : Nat} (htoken : tokens[offset]? = some token)
    (hkind : token.kind ≠ .newline) (fuel : Nat) :
    Gives (newlinesFrom template (fuel + 1) offset) tokens fun found left =>
      found = offset ∧ left = tokens := by
  refine gives_peekAt htoken ?_
  rw [if_neg (by simpa using hkind)]
  exact gives_pure ⟨rfl, rfl⟩

/-- Counting line breaks goes on behind a line break. -/
theorem gives_newlinesFrom_newline {token : Token} {offset fuel : Nat}
    {good : Nat → List Token → Prop} (htoken : tokens[offset]? = some token)
    (hkind : token.kind = .newline)
    (h : Gives (newlinesFrom template fuel (offset + 1)) tokens good) :
    Gives (newlinesFrom template (fuel + 1) offset) tokens good := by
  refine gives_peekAt htoken ?_
  rw [if_pos (by simpa using hkind)]
  exact h

/-- A line of code without a body is left alone with what follows it. -/
theorem gives_bare {β : Type} {next : Nat → Token → Parse β} {good : β → List Token → Prop}
    (h : Follows unit final tokens line depth rest)
    (hnext : ∀ breaks token, token.kind ≠ .indent → Gives (next breaks token) tokens good) :
    Gives (do
      let breaks ← newlinesFrom template (← tokenBound) 0
      let token ← peekAt template breaks
      next breaks token) tokens good := by
  refine gives_tokenBound fun bound hbound => ?_
  obtain ⟨token, left, hleft, hkind⟩ := leaving_eq_cons unit final line depth rest
  have hnewline : token.kind ≠ .newline := ne_of_mem_kinds hkind (by decide)
  have hindent : token.kind ≠ .indent := ne_of_mem_kinds hkind (by decide)
  obtain ⟨fuel, rfl⟩ := Nat.exists_eq_succ_of_ne_zero (Nat.ne_of_gt (Nat.zero_lt_of_lt hbound))
  rcases h with rfl | ⟨number, rfl⟩
  · -- no line break stands in front of the next line
    rw [hleft] at hnext ⊢
    refine (gives_newlinesFrom rfl hnewline fuel).bind ?_
    rintro found tokens ⟨rfl, rfl⟩
    exact gives_peekAt rfl (hnext 0 token hindent)
  · -- one does
    rw [hleft] at hnext hbound ⊢
    have hopen : (Token.bare .newline number).kind ≠ .eos := fun h => nomatch h
    rw [Lexer.countOpen_cons_of_ne hopen] at hbound
    obtain ⟨fuel, rfl⟩ := Nat.exists_eq_succ_of_ne_zero (show fuel ≠ 0 by omega)
    refine (gives_newlinesFrom_newline rfl rfl (gives_newlinesFrom rfl hnewline fuel)).bind ?_
    rintro found tokens ⟨rfl, rfl⟩
    exact gives_peekAt rfl (hnext 1 token hindent)

theorem readsAs_code (word : TestWord) (test : Expression) {body : List Outline}
    (hinner : ∀ outline ∈ body, ReadsAs unit final inner outline) :
    ReadsAs unit final (statementStep template inner) (.code word test body) := by
  intro line depth rest hrest
  refine gives_peek (gives_expect rfl (Gives.withSuffix ?_))
  cases body with
  | nil =>
      have hfollows := follows_stream unit final (line + 1) hrest.shallow
      show Gives _ (stream unit final (line + 1) depth rest) _
      refine gives_bare hfollows ?_
      intro breaks token hkind
      rw [if_neg (by simpa using hkind)]
      refine gives_newNode fun id => ⟨?_, hfollows⟩
      rw [Node.finished_make]
      rfl
  | cons first others =>
      have hbody := gives_bodied (line + 1 : Nat) (.code (word.code test.text) false false)
        (gives_indentedBlock template hinner hrest.shallow (line + 1))
      show Gives _ (stream unit final (line + 1) depth
        (rows (depth + 1) (first :: others) ++ rest)) _
      -- the body starts with its indent, so no line break is counted
      rw [stream_deeper] at hbody ⊢
      refine gives_tokenBound fun bound hbound => ?_
      obtain ⟨fuel, rfl⟩ := Nat.exists_eq_succ_of_ne_zero (Nat.ne_of_gt (Nat.zero_lt_of_lt hbound))
      have hindent : (⟨(line + 1 + 1 : Nat), .indent ((depth + 1) * unit.width)⟩ : Token).kind
          ≠ .newline := fun h => nomatch h
      refine (gives_newlinesFrom rfl hindent fuel).bind ?_
      rintro found tokens ⟨rfl, rfl⟩
      refine gives_peekAt rfl (hbody.imp ?_)
      rintro draft left ⟨hdraft, hleft⟩
      refine ⟨hdraft, hleft.shift ?_⟩
      simp only [linesAll, lines]
      omega

/-- Whether a token is the `else` of a loop. -/
def isOtherwise (token : Token) : Bool := token.kind == .code && token.value == "else"

theorem code_ne_otherwise (word : TestWord) (test : String) : word.code test ≠ "else" := by
  intro h
  have hlist := congrArg String.toList h
  cases word <;> simp [TestWord.code] at hlist

/-- What follows a closed statement is no `else`. -/
theorem leaving_eq_cons_of_closed (unit : IndentUnit) (final : Bool)
    (hrest : Closed depth rest) (line : Nat) :
    ∃ token tokens, leaving unit final line depth rest = token :: tokens
      ∧ isOtherwise token = false := by
  cases rest with
  | nil => cases depth <;> exact ⟨_, _, rfl, rfl⟩
  | cons row rows =>
      obtain ⟨hle, hhead⟩ := hrest row rfl
      rw [leaving]
      rcases Nat.lt_or_eq_of_le hle with hlt | heq
      · obtain ⟨count, hcount⟩ := Nat.exists_eq_succ_of_ne_zero (Nat.sub_ne_zero_of_lt hlt)
        rw [hcount]
        exact ⟨_, _, rfl, rfl⟩
      · rw [heq, Nat.sub_self]
        refine ⟨_, _, rfl, ?_⟩
        cases hkind : row.head with
        | code word test =>
            exact Bool.and_eq_false_imp.mpr fun _ =>
              beq_eq_false_iff_ne.mpr (code_ne_otherwise word test.text)
        | otherwise => exact absurd hkind (hhead heq)
        | _ => rfl

theorem readsAs_each (loop : Loop) {first : Outline} {body alternative : List Outline}
    (hbody : ∀ outline ∈ first :: body, ReadsAs unit final inner outline)
    (halternative : ∀ outline ∈ alternative, ReadsAs unit final inner outline) :
    ReadsAs unit final (statementStep template inner) (.each loop first body alternative) := by
  intro line depth rest hrest
  refine gives_peek (gives_expect rfl (Gives.withSuffix ?_))
  cases alternative with
  | nil =>
      have hrows : rowsBelow depth (each loop first body []) ++ rest
          = rows (depth + 1) (first :: body) ++ rest := by
        rw [rowsBelow, List.append_nil, rows]
      -- what follows the body is not taken for an alternative
      rw [hrows]
      refine Gives.bind (gives_indentedBlock template hbody hrest.shallow (line + 1)) ?_
      rintro block left ⟨hblock, rfl⟩
      obtain ⟨token, left, hleft, hother⟩ := leaving_eq_cons_of_closed unit final
        hrest (line + 1 + linesAll (first :: body))
      rw [hleft]
      refine gives_peek ?_
      show Gives (if isOtherwise token then _ else _) _ _
      rw [hother]
      refine gives_newNode fun id => ⟨?_, ?_⟩
      · rw [Node.finished_make]
        exact congrArg (fun body => Node.mk _ _ [body]) hblock
      · rw [← hleft]
        refine Follows.shift (Or.inl rfl) ?_
        simp only [linesAll, lines]
        omega
  | cons other others =>
      have hrows : rowsBelow depth (each loop first body (other :: others)) ++ rest
          = rows (depth + 1) (first :: body)
            ++ (⟨depth, .otherwise⟩ :: (rows (depth + 1) (other :: others) ++ rest)) := by
        simp [rowsBelow, rows]
      -- the body ends at the line of the alternative, which is not deeper
      have hshallow : Shallow depth
          (⟨depth, .otherwise⟩ :: (rows (depth + 1) (other :: others) ++ rest)) := by
        rintro row ⟨rfl⟩
        exact Nat.le_refl _
      rw [hrows]
      refine Gives.bind (gives_indentedBlock template hbody hshallow (line + 1)) ?_
      rintro block left ⟨hblock, rfl⟩
      rw [leaving, Nat.sub_self]
      refine gives_peek ?_
      show Gives (if isOtherwise (⟨_, Head.lexeme .otherwise⟩ : Token) then _ else _) _ _
      refine gives_drop (Gives.bind (gives_indentedBlock template halternative hrest.shallow _) ?_)
      rintro last left ⟨hlast, rfl⟩
      refine gives_newNode fun id => ⟨?_, ?_⟩
      · -- the body of the alternative starts behind its line
        have hline : line + 1 + linesAll (first :: body) + 1 + 1
            = line + 1 + 1 + lines first + linesAll body + 1 := by
          simp only [linesAll]
          omega
        rw [hline] at hlast
        rw [Node.finished_make]
        show Node.mk _ _ [(Node.ofBlock block).finished, (Node.ofBlock last).finished] = _
        rw [hblock, hlast]
        rfl
      · refine Follows.shift (Or.inl rfl) ?_
        simp only [linesAll, lines]
        omega

/-! ## Elements -/

/-- The kinds of token at the end of a line. -/
def endKinds : List TokenKind := [.newline, .indent, .outdent, .eos]

/-- The tokens after a line start with what ends it. -/
theorem stream_eq_cons (unit : IndentUnit) (final : Bool) (line depth : Nat) (rest : List Row) :
    ∃ token tokens, stream unit final line depth rest = token :: tokens
      ∧ token.kind ∈ endKinds := by
  cases rest with
  | nil =>
      cases final with
      | true => exact ⟨_, _, rfl, by simp [Token.bare, Token.kind, Lexeme.kind, endKinds]⟩
      | false =>
          cases depth <;>
            exact ⟨_, _, rfl, by simp [Token.bare, Token.kind, Lexeme.kind, endKinds]⟩
  | cons row rows =>
      rw [stream, between]
      split
      · next hlt =>
          obtain ⟨count, hcount⟩ := Nat.exists_eq_succ_of_ne_zero (Nat.sub_ne_zero_of_lt hlt)
          rw [hcount]
          exact ⟨_, _, rfl, by simp [Token.bare, Token.kind, Lexeme.kind, endKinds]⟩
      · split
        · exact ⟨_, _, rfl, by simp [Token.kind, Lexeme.kind, endKinds]⟩
        · exact ⟨_, _, rfl, by simp [Token.bare, Token.kind, Lexeme.kind, endKinds]⟩

section

variable {token : Token} (hkind : token.kind ∈ endKinds)

include hkind

theorem gives_readAttributes (element : Element) :
    Gives (readAttributes template element) (token :: tokens) fun found left =>
      found = element ∧ left = token :: tokens := by
  refine gives_tokenBound fun bound hbound => ?_
  obtain ⟨fuel, rfl⟩ := Nat.exists_eq_succ_of_ne_zero (Nat.ne_of_gt (Nat.zero_lt_of_lt hbound))
  refine gives_peek ?_
  split
  · next h => exact absurd h (ne_of_mem_kinds hkind (by decide))
  · next h => exact absurd h (ne_of_mem_kinds hkind (by decide))
  · next h => exact absurd h (ne_of_mem_kinds hkind (by decide))
  · exact gives_pure ⟨rfl, rfl⟩

theorem gives_takeDot :
    Gives (takeDot template) (token :: tokens) fun dot left =>
      dot = false ∧ left = token :: tokens := by
  have hdot : (token.kind == .text && token.value == ".") = false := by
    rw [beq_eq_false_iff_ne.mpr (ne_of_mem_kinds hkind (by decide)), Bool.false_and]
  refine gives_peek ?_
  rw [hdot]
  exact gives_pure ⟨rfl, rfl⟩

theorem gives_readLineContent (opened : OpenElement) :
    Gives (readLineContent template inner opened) (token :: tokens) fun found left =>
      found = opened ∧ left = token :: tokens := by
  refine gives_peek ?_
  split
  · next h => exact absurd h (ne_of_mem_kinds hkind (by decide))
  · next h => exact absurd h (ne_of_mem_kinds hkind (by decide))
  · next h => exact absurd h (ne_of_mem_kinds hkind (by decide))
  · exact gives_pure ⟨rfl, rfl⟩

end

theorem gives_skipNewlinesWith {token : Token} (hkind : token.kind ≠ .newline) (fuel : Nat) :
    Gives (skipNewlinesWith template (fuel + 1)) (token :: tokens) fun _ left =>
      left = token :: tokens := by
  refine gives_isAt ?_
  rw [beq_eq_false_iff_ne.mpr hkind]
  exact gives_pure rfl

theorem gives_skipNone {token : Token} (hkind : token.kind ≠ .newline) :
    Gives (skipNewlines template) (token :: tokens) fun _ left => left = token :: tokens := by
  refine gives_tokenBound fun bound hbound => ?_
  obtain ⟨fuel, rfl⟩ := Nat.exists_eq_succ_of_ne_zero (Nat.ne_of_gt (Nat.zero_lt_of_lt hbound))
  exact gives_skipNewlinesWith hkind fuel

/-- The line break after an element without a body is taken with it. -/
theorem gives_skipNewlines (h : Follows unit final tokens line depth rest) :
    Gives (skipNewlines template) tokens fun _ left =>
      left = leaving unit final line depth rest := by
  obtain ⟨token, left, hleft, hkind⟩ := leaving_eq_cons unit final line depth rest
  have hnewline : token.kind ≠ .newline := ne_of_mem_kinds hkind (by decide)
  rcases h with rfl | ⟨number, rfl⟩
  · rw [hleft]
    exact gives_skipNone hnewline
  · refine gives_tokenBound fun bound hbound => ?_
    obtain ⟨fuel, rfl⟩ := Nat.exists_eq_succ_of_ne_zero (Nat.ne_of_gt (Nat.zero_lt_of_lt hbound))
    have hopen : (Token.bare .newline number).kind ≠ .eos := fun h => nomatch h
    rw [Lexer.countOpen_cons_of_ne hopen] at hbound
    obtain ⟨fuel, rfl⟩ := Nat.exists_eq_succ_of_ne_zero (show fuel ≠ 0 by omega)
    rw [hleft]
    exact gives_isAt (gives_drop (gives_skipNewlinesWith hnewline fuel))

/-- An element of statements that has no content on its line. -/
theorem gives_readElement {element : Element} (htext : element.textOnly = false)
    (hname : rawElementNames.contains element.name = false) {children : List Outline}
    (hinner : ∀ outline ∈ children, ReadsAs unit final inner outline)
    (hrest : Shallow depth rest) (line : Nat) :
    Gives (readElement template inner element)
      (stream unit final line depth (rows (depth + 1) children ++ rest))
      fun opened left =>
        opened.element = element ∧ opened.code = none
          ∧ (Node.ofBlock opened.body).finished
            = bodyAt (if children.isEmpty then 0 else line + 1) (trees (line + 1) children)
          ∧ left = leaving unit final (line + linesAll children) depth rest := by
  obtain ⟨token, left, hstream, hkind⟩ :=
    stream_eq_cons unit final line depth (rows (depth + 1) children ++ rest)
  have hraw : hasRawBody element false = false := by
    rw [hasRawBody, htext, hname]
    rfl
  refine Gives.bind (m := fun body left => (Node.ofBlock body).finished = bodyAt 0 []
    ∧ body.nodes = []
    ∧ left = stream unit final line depth (rows (depth + 1) children ++ rest)) ?_ ?_
  · refine gives_newBlock fun id => ⟨?_, rfl, rfl⟩
    rw [Node.finished_ofBlock]
    rfl
  -- neither attributes nor content stand on the line
  rintro body tokens ⟨hbody, hempty, rfl⟩
  rw [hstream]
  refine (gives_readAttributes hkind element).bind ?_
  rintro found tokens ⟨hfound, rfl⟩
  rw [hfound]
  refine (gives_takeDot hkind).bind ?_
  rintro dot tokens ⟨rfl, rfl⟩
  refine (gives_readLineContent hkind _).bind ?_
  rintro opened tokens ⟨rfl, rfl⟩
  rw [← hstream]
  have helement : { element with textOnly := hasRawBody element false } = element := by
    rw [hraw, ← htext]
  cases children with
  | nil =>
      refine (gives_skipNewlines (follows_stream unit final line hrest)).bind ?_
      rintro ⟨⟩ tokens rfl
      obtain ⟨token, left, hleft, hfirst⟩ := leaving_eq_cons unit final line depth rest
      rw [hleft]
      show Gives (readBody template inner
        { element := { element with textOnly := hasRawBody element false }, body }) _ _
      rw [helement]
      -- the line has no body
      refine gives_isAt ?_
      rw [beq_eq_false_iff_ne.mpr (ne_of_mem_kinds hfirst (by decide))]
      exact gives_pure ⟨rfl, rfl, hbody, hleft.symm⟩
  | cons first others =>
      have hblock := gives_indentedBlock template hinner hrest line
      rw [stream_deeper] at hblock ⊢
      have hindent : (⟨(line + 1 : Nat), .indent ((depth + 1) * unit.width)⟩ : Token).kind
          ≠ .newline := fun h => nomatch h
      refine (gives_skipNone hindent).bind ?_
      rintro ⟨⟩ tokens rfl
      show Gives (readBody template inner
        { element := { element with textOnly := hasRawBody element false }, body }) _ _
      rw [helement]
      refine gives_isAt ?_
      show Gives (if element.textOnly then _ else _) _ _
      rw [htext]
      refine hblock.bind ?_
      rintro block left ⟨hfinished, rfl⟩
      -- an empty body is replaced by the one that was read
      have hjoin : joinBody { element, body } block = { element, body := block } := by
        rw [joinBody, hempty]
        rfl
      refine gives_pure ?_
      rw [hjoin]
      exact ⟨rfl, rfl, hfinished, rfl⟩

theorem readsAs_tag (name : TagName) {children : List Outline}
    (hinner : ∀ outline ∈ children, ReadsAs unit final inner outline) :
    ReadsAs unit final (statementStep template inner) (.tag name children) := by
  intro line depth rest hrest
  have hraw : rawElementNames.contains name.text = false := by
    refine Bool.eq_false_iff.mpr fun h => name.free ?_
    have hmem := List.contains_iff_mem.mp h
    simp only [rawElementNames, List.mem_cons, List.not_mem_nil, or_false] at hmem
    rcases hmem with hname | hname <;> rw [hname] <;> decide
  refine gives_peek (gives_expect rfl (Gives.withSuffix ?_))
  refine (gives_readElement rfl hraw hinner hrest.shallow (line + 1)).bind ?_
  rintro opened left ⟨helement, hcode, hbody, rfl⟩
  refine gives_newNode fun id => ⟨?_, Follows.shift (Or.inl rfl) ?_⟩
  · rw [Node.finished_make, helement, hcode]
    exact congrArg (fun body => Node.mk _ _ [body]) hbody
  · simp only [lines]
    omega

theorem lines_pos (outline : Outline) : 0 < outline.lines := by
  cases outline with
  | each loop first body alternative => cases alternative <;> simp only [lines] <;> omega
  | _ =>
      simp only [lines]
      omega

theorem lines_le_linesAll {outline : Outline} {outlines : List Outline}
    (h : outline ∈ outlines) : outline.lines ≤ linesAll outlines := by
  induction outlines with
  | nil => exact absurd h List.not_mem_nil
  | cons first outlines ih =>
      rw [linesAll]
      rcases List.mem_cons.mp h with rfl | h
      · exact Nat.le_add_right _ _
      · exact Nat.le_trans (ih h) (Nat.le_add_left _ _)

/-- **A statement is read as what it says**, once the fuel is as large as its number of lines. -/
theorem readsAs_statementWith (fuel : Nat) :
    ∀ outline : Outline, outline.lines ≤ fuel →
      ReadsAs unit final (statementWith template fuel) outline := by
  induction fuel with
  | zero =>
      intro outline hlines
      exact absurd hlines (Nat.not_le_of_gt (lines_pos outline))
  | succ fuel ih =>
      -- every statement inside has fewer lines than the one around it
      have hall : ∀ {outlines : List Outline}, linesAll outlines ≤ fuel →
          ∀ outline ∈ outlines, ReadsAs unit final (statementWith template fuel) outline :=
        fun hlines outline hmem => ih outline (Nat.le_trans (lines_le_linesAll hmem) hlines)
      intro outline hlines
      cases outline with
      | tag name children => exact readsAs_tag name (hall (by simp only [lines] at hlines; omega))
      | text content => exact readsAs_text content
      | code word test body =>
          exact readsAs_code word test (hall (by simp only [lines] at hlines; omega))
      | each loop first body alternative =>
          have hsum : 1 + linesAll (first :: body) + linesAll alternative ≤ fuel + 1 := by
            cases alternative <;> simp only [lines, linesAll] at hlines ⊢ <;> omega
          exact readsAs_each loop (hall (by omega)) (hall (by omega))
      | case subject first arms =>
          refine readsAs_case subject (hall ?_)
          simp only [lines, linesAll] at hlines ⊢
          omega
      | arm value first body =>
          refine readsAs_arm value (hall ?_)
          simp only [lines, linesAll] at hlines ⊢
          omega
      | comment note body =>
          exact readsAs_comment note (hall (by simp only [lines] at hlines; omega))

end Outline

end Stencil
