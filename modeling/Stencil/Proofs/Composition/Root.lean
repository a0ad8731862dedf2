import Stencil.Document
import Stencil.Proofs.Composition.Resolve

/-! # Roots — templates that are composed alone

    The statements of a source are what its document gives
    (`readStatements_eq_ok`).  A template without a layout is composed to a block
    that holds its statements, and a fault in reading it is the fault of
    composing it.  So what is known of `document` at the start of a template is
    known of `parseText`. -/

namespace Stencil

variable {config : Config} {source : Source} {fuel : Nat}

/-! ## The statements of a source -/

section Statements

variable {compose : Source → Assemble Composed} {assembly read : Assembly}

/-- The template that a source is. -/
def Source.template (source : Source) (config : Config) (compose : Source → Assemble Composed)
    (owner : Nat) : Template :=
  { config, filename := source.filename, owner, lineage := source.path, compose }

/-- The state in which a source is begun to be read. -/
def Source.begin (source : Source) (config : Config) (assembly : Assembly) : Progress :=
  { lexer := .ofSource source.text config.colons,
    assembly := { assembly with templates := assembly.templates + 1 } }

/-- The statements of a source are what its document gives. -/
theorem readStatements_eq_ok {nodes : List Draft} {layout : Option Layout} :
    readStatements config compose source assembly = .ok (nodes, layout) read ↔
      ∃ after, Parse.document (source.template config compose assembly.templates)
          (source.begin config assembly) = .ok nodes after
        ∧ after.layout = layout ∧ after.assembly = read := by
  unfold readStatements
  constructor
  · intro hread
    dsimp only at hread
    split at hread
    · next after hdocument =>
        cases hread
        exact ⟨after, hdocument, rfl, rfl⟩
    · cases hread
  · rintro ⟨after, hdocument, rfl, rfl⟩
    dsimp only
    split
    · next hother =>
        cases hother.symm.trans hdocument
        rfl
    · next hother => cases hother.symm.trans hdocument

theorem readStatements_of_fault {fault : Fault} {after : Progress}
    (hdocument : Parse.document (source.template config compose assembly.templates)
      (source.begin config assembly) = .error fault after) :
    readStatements config compose source assembly = .error fault after.assembly := by
  unfold readStatements
  dsimp only
  split
  · next hother => cases hother.symm.trans hdocument
  · next hother =>
      cases hother.symm.trans hdocument
      rfl

end Statements

/-! ## Templates without a layout -/

/-- A template without a layout is composed to its statements. -/
theorem composeWith_of_root {before read : Assembly} {nodes : List Draft}
    (hread : readStatements config (composeWith config fuel) source before
      = .ok (nodes, none) read) :
    composeWith config (fuel + 1) source before
      = .ok
        { root := { id := read.store.next, line := 1, props := { filename := source.filename },
                    nodes } }
        { read with store := read.store.taken } := by
  show EStateM.bind (readStatements config (composeWith config fuel) source) _ before = _
  rw [EStateM.bind, hread]
  rfl

/-- A fault in reading a template is one in composing it. -/
theorem composeWith_of_fault {before read : Assembly} {fault : Fault}
    (hread : readStatements config (composeWith config fuel) source before = .error fault read) :
    composeWith config (fuel + 1) source before = .error fault read := by
  show EStateM.bind (readStatements config (composeWith config fuel) source) _ before = _
  rw [EStateM.bind, hread]

/-- The bound on the number of templates allows for one at least. -/
theorem Config.chainBound_pos (config : Config) : ∃ fuel, config.chainBound = fuel + 1 := by
  unfold Config.chainBound
  cases config.activeLoader with
  | table templates => exact ⟨templates.size + 1, rfl⟩
  | files tree => exact ⟨3 * tree.files.size + 15, rfl⟩

/-! ## Trees of blocks -/

theorem Store.isBlock_resolve (store : Store Draft) (block : Block BlockId Draft) :
    (store.resolve (.ofBlock block)).isBlock = true := by
  unfold Store.resolve Store.resolveWith
  cases hother : (store.current.get? block.id) with
  | none =>
      have hid : (Node.ofBlock block).id? = some block.id := rfl
      rw [Store.substitute_of_none hid (by rw [hother]; rfl)]
      rfl
  | some state =>
      rw [Store.substitute_of_some (by rw [hother]; rfl)]
      rfl

theorem Node.isBlock_finished {node : Draft} (h : node.isBlock = true) :
    node.finished.isBlock = true := by
  obtain ⟨own, line, kind, children⟩ := node
  cases kind with
  | block id props => rfl
  | _ => exact nomatch h

/-! ## The start of a template -/

/-- The template of a source that is composed on its own. -/
def Template.first (config : Config) (source : Source) (fuel : Nat) : Template :=
  { config, filename := source.filename, owner := 0, lineage := source.path,
    compose := composeWith config fuel }

/-- The state at the start of a template that is composed on its own. -/
def Progress.first (config : Config) (text : String) : Progress :=
  { lexer := .ofSource text config.colons, assembly := { templates := 1 } }

variable {text : String} {filename : Option String} {after : Progress}

/-- A template that is read to its end and has no layout is parsed to a block. -/
theorem parseText_of_ok {nodes : List Draft} (hfuel : config.chainBound = fuel + 1)
    (hread : Parse.document (.first config { text, filename } fuel) (.first config text)
      = .ok nodes after)
    (hlayout : after.layout = none) :
    ∃ root, parseText config text filename = .ok root ∧ root.isBlock = true := by
  have hstatements : readStatements config (composeWith config fuel) { text, filename } {}
      = .ok (nodes, none) after.assembly :=
    readStatements_eq_ok.mpr ⟨after, hread, hlayout, rfl⟩
  rw [parseText, composeText, compose, hfuel, composeWith_of_root hstatements]
  exact ⟨_, rfl, Node.isBlock_finished (Store.isBlock_resolve _ _)⟩

/-- A template that is refused is refused by the parse. -/
theorem parseText_of_fault {fault : Fault} (hfuel : config.chainBound = fuel + 1)
    (hread : Parse.document (.first config { text, filename } fuel) (.first config text)
      = .error fault after) :
    parseText config text filename = .error fault := by
  have hstatements : readStatements config (composeWith config fuel) { text, filename } {}
      = .error fault after.assembly := readStatements_of_fault hread
  rw [parseText, composeText, compose, hfuel, composeWith_of_fault hstatements]
  rfl

end Stencil
