import Stencil.Proofs.Composition.Root
import Stencil.Proofs.Outline.Reading

/-! # Round trip — a printed outline is read back

    The pieces are in place: the lexer gives the tokens of the lines
    (`reads_stream`), and the grammar takes them for the tree
    (`readsAs_statementWith`).  What is left is that the lines of an outline are
    lines the lexer lemma speaks about (`steady_rows`), that the bound on the
    number of steps is large enough (`linesAll_le_countOpen`), and that nothing
    else happens to a template without layouts, includes and named blocks: its
    tree is not changed after it was written (`resolve_of_empty`). -/

namespace Stencil

namespace Outline

open Parse

variable {unit : IndentUnit} {final : Bool}

/-! ## The lines of an outline -/

theorem Steady.mono {depth deeper : Nat} (h : depth ≤ deeper) :
    ∀ {rest : List Row}, Steady depth rest → Steady deeper rest
  | [], _ => trivial
  | _ :: _, hsteady => ⟨Nat.le_trans hsteady.1 (Nat.succ_le_succ h), hsteady.2⟩

/-- The line of a statement and those below it, in a body that starts one level deeper. -/
theorem steady_first {depth : Nat} {first : Outline} {rest : List Row}
    (hfirst : ∀ {more : List Row}, Steady (depth + 1) more →
      Steady (depth + 1) (rowsBelow (depth + 1) first ++ more))
    (hrest : Steady depth rest) :
    Steady depth (⟨depth + 1, first.head⟩ :: (rowsBelow (depth + 1) first ++ rest)) :=
  ⟨Nat.le_refl _, hfirst (hrest.mono (Nat.le_succ depth))⟩

mutual

theorem steady_rowsBelow (depth : Nat) :
    ∀ (outline : Outline) {rest : List Row}, Steady depth rest →
      Steady depth (rowsBelow depth outline ++ rest)
  | .tag _ children, _, h => steady_rows depth children h
  | .text _, _, h => h
  | .code _ _ body, _, h => steady_rows depth body h
  | .each _ first body [], _, h => by
      simp only [rowsBelow, List.cons_append, List.append_assoc, List.nil_append]
      exact steady_first (steady_rowsBelow (depth + 1) first) (steady_rows depth body h)
  | .each _ first body (other :: others), _, h => by
      simp only [rowsBelow, List.cons_append, List.append_assoc]
      refine steady_first (steady_rowsBelow (depth + 1) first) (steady_rows depth body ?_)
      refine ⟨Nat.le_succ depth, ?_⟩
      exact steady_first (steady_rowsBelow (depth + 1) other) (steady_rows depth others h)
  | .case _ first arms, _, h => by
      simp only [rowsBelow, List.cons_append, List.append_assoc]
      exact steady_first (steady_rowsBelow (depth + 1) first) (steady_rows depth arms h)
  | .arm _ first body, _, h => by
      simp only [rowsBelow, List.cons_append, List.append_assoc]
      exact steady_first (steady_rowsBelow (depth + 1) first) (steady_rows depth body h)
  | .comment _ body, _, h => steady_rows depth body h

theorem steady_rows (depth : Nat) :
    ∀ (outlines : List Outline) {rest : List Row}, Steady depth rest →
      Steady depth (rows (depth + 1) outlines ++ rest)
  | [], _, h => h
  | outline :: outlines, _, h => by
      simp only [rows, List.cons_append, List.append_assoc]
      exact steady_first (steady_rowsBelow (depth + 1) outline) (steady_rows depth outlines h)

end

/-- The lines of statements that stand side by side. -/
theorem steady_siblings (depth : Nat) (outlines : List Outline) :
    Steady depth (rows depth outlines) := by
  induction outlines with
  | nil => trivial
  | cons outline outlines ih =>
      rw [rows, List.cons_append]
      exact ⟨Nat.le_succ depth, steady_rowsBelow depth outline ih⟩

mutual

theorem length_rowsBelow (depth : Nat) :
    ∀ outline : Outline, (rowsBelow depth outline).length + 1 = outline.lines
  | .tag _ children => by
      rw [rowsBelow, lines, length_rows (depth + 1) children, Nat.add_comm]
  | .text _ => rfl
  | .code _ _ body => by rw [rowsBelow, lines, length_rows (depth + 1) body, Nat.add_comm]
  | .each _ first body [] => by
      have hfirst := length_rowsBelow (depth + 1) first
      have hbody := length_rows (depth + 1) body
      simp only [rowsBelow, lines, List.length_append, List.length_cons, List.length_nil]
      omega
  | .each _ first body (other :: others) => by
      have hfirst := length_rowsBelow (depth + 1) first
      have hbody := length_rows (depth + 1) body
      have hother := length_rowsBelow (depth + 1) other
      have hothers := length_rows (depth + 1) others
      simp only [rowsBelow, lines, List.length_append, List.length_cons]
      omega
  | .case _ first arms => by
      have hfirst := length_rowsBelow (depth + 1) first
      have harms := length_rows (depth + 1) arms
      simp only [rowsBelow, lines, List.length_append, List.length_cons]
      omega
  | .arm _ first body => by
      have hfirst := length_rowsBelow (depth + 1) first
      have hbody := length_rows (depth + 1) body
      simp only [rowsBelow, lines, List.length_append, List.length_cons]
      omega
  | .comment _ body => by rw [rowsBelow, lines, length_rows (depth + 1) body, Nat.add_comm]

theorem length_rows (depth : Nat) :
    ∀ outlines : List Outline, (rows depth outlines).length = linesAll outlines
  | [] => rfl
  | outline :: outlines => by
      have houtline := length_rowsBelow depth outline
      have houtlines := length_rows depth outlines
      simp only [rows, linesAll, List.length_append, List.length_cons]
      omega

end

/-- Every line is a token that does not end the text. -/
theorem length_le_countOpen (unit : IndentUnit) (final : Bool) (rows : List Row) :
    ∀ line depth : Nat, rows.length ≤ Lexer.countOpen (stream unit final line depth rows) := by
  induction rows with
  | nil => intro line depth; exact Nat.zero_le _
  | cons row rows ih =>
      intro line depth
      have hopen : (⟨(line + 1 : Nat), row.head.lexeme⟩ : Token).kind ≠ .eos :=
        ne_of_mem_kinds (kind_lexeme_mem row.head) (by decide)
      rw [stream, Lexer.countOpen_append, Lexer.countOpen_cons_of_ne hopen, List.length_cons]
      have := ih (line + 1) row.depth
      omega

/-! ## The whole text -/

theorem mem_variables {loop : Loop} {c : Char} (h : c ∈ Head.variables loop) :
    c = ',' ∨ c = ' ' ∨ Text.isWord c = true := by
  obtain ⟨item, key, source⟩ := loop
  cases key with
  | none =>
      simp only [Head.variables, List.append_nil] at h
      exact Or.inr (Or.inr (item.word c h))
  | some key =>
      have hmem : c ∈ item.text.toList ∨ c = ',' ∨ c = ' ' ∨ c ∈ key.text.toList := by
        simpa [Head.variables] using h
      rcases hmem with h | h | h | h
      · exact Or.inr (Or.inr (item.word c h))
      · exact Or.inl h
      · exact Or.inr (Or.inl h)
      · exact Or.inr (Or.inr (key.word c h))

theorem print_ne_return (head : Head) : '\r' ∉ head.print := by
  have hvariables : ∀ loop : Loop, '\r' ∉ Head.variables loop := fun loop hc => by
    rcases mem_variables hc with h | h | h <;> exact absurd h (by decide)
  have hjoin : ∀ {front back : List Char}, '\r' ∉ front → '\r' ∉ back → '\r' ∉ front ++ back :=
    fun hfront hback h => (List.mem_append.mp h).elim hfront hback
  cases head with
  | tag name => exact name.return_not_mem
  | text content => exact hjoin (by decide) content.return_not_mem
  | code word test =>
      refine hjoin (by cases word <;> decide) fun h => ?_
      rcases List.mem_cons.mp h with h | h
      · exact absurd h (by decide)
      · exact test.return_not_mem h
  | each loop =>
      exact hjoin (hjoin (hjoin (by decide) (hvariables loop)) (by decide))
        loop.source.return_not_mem
  | otherwise => exact fun h => absurd h (by decide)
  | case subject => exact hjoin (by decide) subject.return_not_mem
  | when value => exact hjoin (by decide) value.return_not_mem
  | default => exact fun h => absurd h (by decide)
  | comment note => exact hjoin (by decide) note.return_not_mem

theorem row_print_ne_return (row : Row) : '\r' ∉ row.print unit := by
  rw [Row.print, List.mem_append, not_or]
  refine ⟨fun h => ?_, print_ne_return row.head⟩
  have hchar := List.eq_of_mem_replicate h
  cases hstyle : unit.style <;> rw [hstyle] at hchar <;> exact absurd hchar (by decide)

theorem printRows_ne_return (rows : List Row) : '\r' ∉ printRows unit final rows := by
  have hafter : ∀ rows : List Row, '\r' ∉ textAfter unit final rows := by
    intro rows
    induction rows with
    | nil => cases final <;> simp [textAfter]
    | cons row rows ih => simp [textAfter, row_print_ne_return row, ih]
  cases rows with
  | nil => exact List.not_mem_nil
  | cons row rows =>
      rw [printRows_cons, List.mem_append, not_or]
      exact ⟨row_print_ne_return row, hafter rows⟩

theorem leaving_rows (outline : Outline) (outlines : List Outline) :
    leaving unit final 0 0 (rows 0 (outline :: outlines))
      = ⟨(1 : Nat), outline.head.lexeme⟩
        :: stream unit final 1 0 (rowsBelow 0 outline ++ rows 0 outlines) := by
  have hrows := rows_cons_append 0 outline outlines []
  rw [List.append_nil, List.append_nil] at hrows
  rw [hrows, leaving]
  rfl

/-- A lexer at the start of a printed text has the tokens of its lines ahead. -/
theorem ahead_print (unit : IndentUnit) (final : Bool) (outline : Outline)
    (outlines : List Outline) (colons : Bool) :
    (Lexer.ofSource (print unit final (outline :: outlines)) colons).Ahead
      (leaving unit final 0 0 (rows 0 (outline :: outlines))) := by
  have hrows : rows 0 (outline :: outlines)
      = ⟨0, outline.head⟩ :: (rowsBelow 0 outline ++ rows 0 outlines) := by
    rw [rows, List.cons_append]
  have hinput : (Lexer.ofSource (print unit final (outline :: outlines)) colons).input
      = outline.head.print
        ++ textAfter unit final (rowsBelow 0 outline ++ rows 0 outlines) := by
    show Text.normalizeNewlines (String.toList (String.ofList _)) = _
    rw [String.toList_ofList, Text.normalizeNewlines_of_not_mem _ (printRows_ne_return _), hrows,
      printRows_cons, Row.print, IndentUnit.at, Nat.zero_mul]
    rfl
  have hs : Settled unit (Lexer.ofSource (print unit final (outline :: outlines)) colons) 1 0 :=
    ⟨rfl, rfl, fun _ h => absurd h (Option.some_ne_none _).symm, rfl, rfl⟩
  have hfirst := next_head hs outline.head (endsLine_textAfter unit final _) hinput
  have hend : AtLineEnd unit final _ 1 0 (rowsBelow 0 outline ++ rows 0 outlines) :=
    ⟨hs.withInput (textAfter unit final (rowsBelow 0 outline ++ rows 0 outlines)), rfl⟩
  obtain ⟨last, hreads⟩ :=
    reads_stream _ hend (steady_rowsBelow 0 outline (steady_siblings 0 outlines))
  rw [leaving_rows]
  exact Lexer.ahead_of_reads rfl rfl (.take hfirst hreads)

/-- A lexer at the start of a text without statements is at its end. -/
theorem ahead_nil (colons : Bool) :
    (Lexer.ofSource (print unit final []) colons).Ahead [.bare .eos (1 : Nat)] := by
  have hs : Settled unit (Lexer.ofSource (print unit final []) colons) 1 0 :=
    ⟨rfl, rfl, fun _ h => absurd h (Option.some_ne_none _).symm, rfl, rfl⟩
  obtain ⟨last, hreads⟩ := reads_end 0 hs (by
    show Text.normalizeNewlines (String.toList (String.ofList [])) = []
    rw [String.toList_ofList]
    rfl)
  exact Lexer.ahead_of_reads rfl rfl hreads

theorem linesAll_le_countOpen (unit : IndentUnit) (final : Bool) (outlines : List Outline) :
    linesAll outlines
      ≤ Lexer.countOpen (leaving unit final 0 0 (rows 0 outlines)) := by
  cases outlines with
  | nil => exact Nat.zero_le _
  | cons outline outlines =>
      have hopen : (⟨(1 : Nat), outline.head.lexeme⟩ : Token).kind ≠ .eos :=
        ne_of_mem_kinds (kind_lexeme_mem outline.head) (by decide)
      have hlines := length_rows 0 (outline :: outlines)
      have hcount := length_le_countOpen unit final
        (rowsBelow 0 outline ++ rows 0 outlines) 1 0
      rw [rows, List.cons_append, List.length_cons] at hlines
      rw [leaving_rows, Lexer.countOpen_cons_of_ne hopen]
      omega

variable {template : Template}

/-- **The grammar reads the tokens of a printed text** as the trees of its statements. -/
theorem gives_document (unit : IndentUnit) (final : Bool) (outlines : List Outline) :
    Gives (Parse.document template) (leaving unit final 0 0 (rows 0 outlines)) fun nodes _ =>
      nodes.map Node.finished = trees 1 outlines := by
  refine gives_tokenBound fun bound hbound => ?_
  have hlines := linesAll_le_countOpen unit final outlines
  have hreads : ∀ outline ∈ outlines,
      ReadsAs unit final (statementWith template (2 * bound)) outline := fun outline hmem =>
    readsAs_statementWith (2 * bound) outline (by
      have := lines_le_linesAll hmem
      omega)
  have hclosed : Closed 0 [] := fun _ h => nomatch h
  have hstatements :=
    gives_statements template 0 (Or.inr rfl) hclosed hreads ⟨_, _, rfl, rfl⟩
  rw [List.append_nil] at hstatements
  exact hstatements.imp fun nodes left hgood => hgood.1

/-- From the start of a printed text the grammar reads the trees of its statements. -/
theorem document_print (template : Template) (outlines : List Outline) {progress : Progress}
    {colons : Bool} (h : progress.lexer = .ofSource (print unit final outlines) colons) :
    ∃ nodes after, Parse.document template progress = .ok nodes after
      ∧ nodes.map Node.finished = trees 1 outlines ∧ progress.Unmoved after := by
  cases outlines with
  | nil =>
      have hahead : progress.lexer.Ahead [.bare .eos (1 : Nat)] := h ▸ ahead_nil colons
      obtain ⟨nodes, after, rest, hrun, htaken, hnodes⟩ :=
        gives_document unit true [] progress hahead
      exact ⟨nodes, after, hrun, hnodes, htaken.unmoved⟩
  | cons outline outlines =>
      have hahead := ahead_print unit final outline outlines colons
      rw [← h] at hahead
      obtain ⟨nodes, after, rest, hrun, htaken, hnodes⟩ :=
        gives_document unit final (outline :: outlines) progress hahead
      exact ⟨nodes, after, hrun, hnodes, htaken.unmoved⟩

/-- A printed text names no layout and changes no block. -/
theorem readStatements_print (unit : IndentUnit) (final : Bool) (config : Config)
    (compose : Source → Assemble Composed) (filename : Option String) (outlines : List Outline)
    (assembly : Assembly) :
    ∃ nodes after, readStatements config compose
        { text := print unit final outlines, filename } assembly = .ok (nodes, none) after
      ∧ nodes.map Node.finished = trees 1 outlines
      ∧ after.store.current = assembly.store.current := by
  let source : Source := { text := print unit final outlines, filename }
  have hstart : (source.begin config assembly).lexer
      = .ofSource (print unit final outlines) config.colons := rfl
  obtain ⟨nodes, after, hrun, hnodes, hmoved⟩ :=
    document_print (source.template config compose assembly.templates) outlines hstart
  exact ⟨nodes, after.assembly, readStatements_eq_ok.mpr ⟨after, hrun, hmoved.layout, rfl⟩,
    hnodes, hmoved.current⟩

/-- **Round trip.**  A printed outline is read back as its tree: every statement with its kind,
    its words, its line, and the statements below it, in every unit of indentation. -/
theorem parseText_print (unit : IndentUnit) (final : Bool) (outlines : List Outline)
    (config : Config) (filename : Option String) :
    parseText config (print unit final outlines) filename = .ok (document filename outlines) := by
  obtain ⟨bound, hbound⟩ : ∃ bound, config.chainBound = bound + 1 := by
    unfold Config.chainBound
    cases config.activeLoader with
    | table templates => exact ⟨templates.size + 1, rfl⟩
    | files tree => exact ⟨3 * tree.files.size + 15, rfl⟩
  obtain ⟨nodes, after, hread, hnodes, hcurrent⟩ := readStatements_print unit final
    config (composeWith config bound) filename outlines {}
  have hcompose : compose config (print unit final outlines) filename {}
      = .ok { root := { id := after.store.next, line := 1, props := { filename }, nodes } }
          { after with store := after.store.taken } := by
    rw [compose, hbound, composeWith, composeStep]
    show EStateM.bind _ _ _ = _
    rw [EStateM.bind, hread]
    rfl
  have hresolve : after.store.taken.current = .empty := hcurrent
  rw [parseText, composeText, hcompose]
  show Except.ok (Document.finish _ _) = _
  rw [Document.finish, Store.resolve_of_empty hresolve, Node.finished_ofBlock]
  exact congrArg (fun nodes => Except.ok (Node.mk 1 (.block () { filename }) nodes)) hnodes

end Outline

end Stencil
