import Stencil.Proofs.Composition.Culprit
import Stencil.Proofs.Grammar.Apart
import Stencil.Proofs.Grammar.Neutral

/-! # Blank lines — a line that may be put into a gap

    Composing a template looks at no line number (`mirroring_composeWith`).  So a
    gap of the template that is read as markup may take an empty line, or one of
    spaces: composing succeeds as before, and the tree is the same but for the
    numbers of lines (`blankLine_neutral`).

    The line must be outside of attribute lists and of raw bodies, and a filter
    with an attribute list reads its body as it stands from the end of the list
    on.  And the line must not be of tabs: only a line of spaces is blank
    (`blankLine_counted`). -/

namespace Stencil

variable {config : Config}

/-! ## Composing looks at no line number -/

section Mirroring

variable {compose : Composer} {source source' : Source}

/-- What is composed of the statements of a template. -/
theorem mirrors_composed (hcompose : Mirroring compose) (hname : source.filename = source'.filename)
    (hlineage : source.lineage = source'.lineage) {nodes nodes' : List Draft}
    (hnodes : NodesLike nodes nodes') (layout? : Option Layout) :
    Mirrors Composed.Like
      (match layout? with
      | none => do return { root := ← newRoot source.filename nodes }
      | some layout => do
          return { root := ← composeLayout compose source layout, layout := some layout.path })
      (match layout? with
      | none => do return { root := ← newRoot source'.filename nodes' }
      | some layout => do
          return { root := ← composeLayout compose source' layout, layout := some layout.path }) :=
    by
  cases layout? with
  | none =>
      rw [← hname]
      exact (mirrors_newRoot hnodes).bind fun _ _ hroot => mirrors_pure ⟨hroot, rfl⟩
  | some layout =>
      have hpath : source.path = source'.path := by rw [Source.path, Source.path, hname, hlineage]
      exact (mirrors_composeLayout hcompose source source' hpath layout).bind fun _ _ hroot =>
        mirrors_pure ⟨hroot, rfl⟩

/-- Composing goes on from the statements in the same way. -/
theorem composeStep_like (source source' : Source) (hcompose : Mirroring compose)
    (hname : source.filename = source'.filename)
    (hlineage : source.lineage = source'.lineage) {before before' read read' after : Assembly}
    {nodes nodes' : List Draft} {layout? : Option Layout} {composed : Composed}
    (hread : readStatements config compose source before = .ok (nodes, layout?) read)
    (hread' : readStatements config compose source' before' = .ok (nodes', layout?) read')
    (hnodes : NodesLike nodes nodes') (hlike : read.Like read')
    (hrun : composeStep config compose source before = .ok composed after) :
    ∃ composed' after', composeStep config compose source' before' = .ok composed' after'
      ∧ composed.Like composed' ∧ after.Like after' := by
  obtain ⟨⟨found, layout⟩, middle, hfound, hrest⟩ := Parse.bind_eq_ok hrun
  cases hfound.symm.trans hread
  obtain ⟨composed', after', hrest', hcomposed, hafter⟩ :=
    mirrors_composed hcompose hname hlineage hnodes layout? hlike hrest
  refine ⟨composed', after', ?_, hcomposed, hafter⟩
  show EStateM.bind (readStatements config compose source') _ before' = _
  rw [EStateM.bind, hread']
  exact hrest'

theorem begin_shares (source : Source) {before before' : Assembly}
    (h : before.Like before') :
    (source.begin config before).Shares (source.begin config before') :=
  ⟨rfl, rfl, h.store, h.registry, h.mixins, congrArg (· + 1) h.templates⟩

/-- **Composing looks at no line number.** -/
theorem mirroring_composeWith (config : Config) (fuel : Nat) :
    Mirroring (composeWith config fuel) := by
  induction fuel with
  | zero => exact fun _ _ _ _ _ _ hrun => by cases hrun
  | succ fuel ih =>
      intro source before before' composed after hlike hrun
      obtain ⟨⟨nodes, layout?⟩, read, hread, -⟩ := Parse.bind_eq_ok hrun
      obtain ⟨done, hdocument, rfl, rfl⟩ := readStatements_eq_ok.mp hread
      let template := source.template config (composeWith config fuel) before.templates
      have hcrosses : Parse.Crosses none .markup NodesLike
          (Parse.documentVia template (Parse.rawBlock template))
          (Parse.documentVia template (Parse.rawBlock template))
          (Parse.documentVia (template.composing template.compose) (Parse.rawBlock template)) :=
        Parse.crosses_documentVia Parse.crosses_rawBlock ih ih
      rw [Parse.documentVia_rawBlock] at hcrosses
      have hbegin : (source.begin config before).Like (source.begin config before') :=
        ⟨begin_shares source hlike, .refl _⟩
      obtain ⟨nodes', done', hdocument', hnodes, hdone⟩ := hcrosses.behind hbegin hdocument
      have hread' : readStatements config (composeWith config fuel) source before'
          = .ok (nodes', done.layout) done'.assembly := by
        refine readStatements_eq_ok.mpr ⟨done', ?_, hdone.layout.symm, rfl⟩
        rw [← hlike.templates]
        exact hdocument'
      exact composeStep_like source source ih rfl rfl hread hread' hnodes hdone.assembly hrun

end Mirroring

/-! ## The text above the gap -/

/-- Composes as another way does, and stops for one and the same cause where that stops. -/
def settled (compose : Composer) : Composer := fun source assembly =>
  match compose source assembly with
  | .ok composed after => .ok composed after
  | .error _ after => .error ⟨.unnamedExtends, {}⟩ after

section Settled

variable {compose : Composer} {source : Source} {before after : Assembly} {fault : Fault}

theorem settled_of_ok {composed : Composed} (h : compose source before = .ok composed after) :
    settled compose source before = .ok composed after := by
  rw [settled, h]

theorem settled_eq_ok {composed : Composed}
    (h : settled compose source before = .ok composed after) :
    compose source before = .ok composed after := by
  unfold settled at h
  cases hcompose : compose source before with
  | ok found last =>
      rw [hcompose] at h
      exact h
  | error found last =>
      rw [hcompose] at h
      cases h

theorem settled_eq_error (h : settled compose source before = .error fault after) :
    fault.cause = .unnamedExtends := by
  unfold settled at h
  cases hcompose : compose source before with
  | ok found last =>
      rw [hcompose] at h
      cases h
  | error found last =>
      rw [hcompose] at h
      cases h
      rfl

/-- Where a way to compose looks at no line number, this one does neither. -/
theorem mirrors_settled (h : Mirroring compose) (source : Source) :
    Mirrors Composed.Like (compose source) (settled compose source) := by
  intro before before' composed after hlike hrun
  obtain ⟨composed', after', hrun', hrest⟩ := h source hlike hrun
  exact ⟨composed', after', settled_of_ok hrun', hrest⟩

/-- A reading that stops in an attribute list does so however other templates are composed. -/
theorem readStatements_unclosed
    (h : readStatements config (settled compose) source before = .error fault after)
    (hcause : fault.cause = .lexical .unterminatedAttributes ∨ fault.cause = .exhausted) :
    fault.cause = .lexical .unterminatedAttributes
      ∧ ∃ last, readStatements config compose source before = .error fault last := by
  have hsettled : ∀ {child assembly found last}, settled compose child assembly
      = .error found last → found.cause ≠ .exhausted := by
    intro child assembly found last hfound hexhausted
    rw [settled_eq_error hfound] at hexhausted
    cases hexhausted
  have hne := readStatements_ne_exhausted (fun _ _ _ _ => hsettled) h
  have hcause := hcause.resolve_right hne
  refine ⟨hcause, ?_⟩
  rcases readStatements_stops h with ⟨hstops, -⟩ | ⟨child, middle, last, -, -, hfound⟩
  · exact hstops compose fun _ _ _ _ => settled_eq_ok
  · rw [settled_eq_error hfound] at hcause
    cases hcause

end Settled

/-! ## A blank line in a gap -/

/-- The gap does not lie in an attribute list: the text above it, read as a template, is not refused
    for a list that is left open. -/
def Gap.OutsideLists (gap : Gap) (config : Config) (filename : Option String) : Prop :=
  ∀ fault, parseText config (String.ofList gap.before) filename = .error fault →
    fault.cause ≠ .lexical .unterminatedAttributes

/-- The gap does not lie in a raw body or at its end: it makes no difference to refuse raw bodies
    that start above the gap and do not end there. -/
def Gap.OutsideRawBodies (gap : Gap) (config : Config) (source : Source) : Prop :=
  let template := Template.first config source (config.chainBound - 1)
  Parse.documentVia template (Parse.endsAbove gap template) (.first config source.text)
    = Parse.document template (.first config source.text)

theorem parseText_eq_ok {text : String} {filename : Option String} {tree : Tree} :
    parseText config text filename = .ok tree ↔ ∃ composed assembly,
      compose config text filename {} = .ok composed assembly
        ∧ Document.finish assembly (.ofBlock composed.root) = tree := by
  unfold parseText composeText
  cases compose config text filename {} with
  | ok composed assembly =>
      constructor
      · rintro ⟨⟩
        exact ⟨composed, assembly, rfl, rfl⟩
      · rintro ⟨_, _, ⟨⟩, rfl⟩
        rfl
  | error fault assembly =>
      constructor
      · rintro ⟨⟩
      · rintro ⟨_, _, ⟨⟩, -⟩

theorem lineless_finish (assembly : Assembly) (draft : Draft) :
    (Document.finish assembly draft).lineless
      = (assembly.store.lineless.resolve draft.lineless).finished := by
  rw [Document.finish, Node.lineless_finished, Store.lineless_resolve]

section Neutral

variable {gap : Gap} {text wider : String} {filename : Option String}

theorem first_parts (htext : Text.normalizeNewlines text.toList = gap.text)
    (hwider : Text.normalizeNewlines wider.toList = gap.widened) :
    gap.Parts .markup (.first config text) (.first config wider)
      (.first config (String.ofList gap.before)) := by
  have hbefore : Text.normalizeNewlines (String.ofList gap.before).toList = gap.before := by
    rw [String.toList_ofList]
    refine Text.normalizeNewlines_of_not_mem _ fun hmem => ?_
    exact Text.not_mem_normalizeNewlines text.toList
      (htext ▸ List.mem_append_left gap.rest hmem)
  refine ⟨rfl, ?_, ?_, ⟨rfl, rfl, .refl _⟩, ⟨rfl, rfl, .refl _⟩⟩
  · simp only [Progress.first, Lexer.ofSource, htext, hbefore]
    exact .refl _
  · simp only [Progress.first, Lexer.ofSource, hwider, hbefore]
    exact .refl _

/-- Outside of attribute lists the text above the gap is not left within one. -/
theorem Gap.OutsideLists.not_breaks {fuel : Nat} (h : gap.OutsideLists config filename)
    (hfuel : config.chainBound = fuel + 1) :
    ¬ Parse.Breaks (Parse.document
      ((Template.first config ⟨text, filename, []⟩ fuel).composing
        (settled (composeWith config fuel)))
      (.first config (String.ofList gap.before))) := by
  rintro ⟨fault, last, hcut, hcause⟩
  have hshort : readStatements config (settled (composeWith config fuel))
      ⟨String.ofList gap.before, filename, []⟩ {} = .error fault last.assembly :=
    readStatements_of_fault hcut
  obtain ⟨hcause, last, hread⟩ := readStatements_unclosed hshort hcause
  refine h fault ?_ hcause
  rw [parseText, composeText, compose, hfuel, composeWith_of_fault hread]
  rfl

/-- The statements of a text with the blank line. -/
theorem readStatements_gap {fuel : Nat} (hfuel : config.chainBound = fuel + 1)
    (htext : Text.normalizeNewlines text.toList = gap.text)
    (hwider : Text.normalizeNewlines wider.toList = gap.widened)
    (hlists : gap.OutsideLists config filename)
    (hraw : gap.OutsideRawBodies config ⟨text, filename, []⟩) {nodes : List Draft}
    {layout? : Option Layout} {read : Assembly}
    (hread : readStatements config (composeWith config fuel) ⟨text, filename, []⟩ {}
      = .ok (nodes, layout?) read) :
    ∃ nodes' read', readStatements config (composeWith config fuel) ⟨wider, filename, []⟩ {}
        = .ok (nodes', layout?) read'
      ∧ NodesLike nodes nodes' ∧ read.Like read' := by
  let template := Template.first config ⟨text, filename, []⟩ fuel
  obtain ⟨after, hdocument, rfl, rfl⟩ := readStatements_eq_ok.mp hread
  have hmirrors : Mirroring template.compose := mirroring_composeWith config fuel
  have hcrosses : Parse.Crosses (some gap) .markup NodesLike
      (Parse.documentVia template (Parse.endsAbove gap template)) (Parse.document template)
      (Parse.document (template.composing (settled template.compose))) := by
    rw [← Parse.documentVia_rawBlock, ← Parse.documentVia_rawBlock]
    exact Parse.crosses_documentVia (Parse.crosses_endsAbove gap) hmirrors
      (mirrors_settled hmirrors)
  have hguarded : Parse.documentVia template (Parse.endsAbove gap template)
      (.first config text) = .ok nodes after := by
    unfold Gap.OutsideRawBodies at hraw
    rw [hfuel, Nat.add_sub_cancel] at hraw
    exact hraw.trans hdocument
  have hfound : ∀ {nodes' : List Draft} {wide : Progress},
      Parse.document template (.first config wider) = .ok nodes' wide →
      NodesLike nodes nodes' → after.Shares wide →
      ∃ nodes' read', readStatements config (composeWith config fuel) ⟨wider, filename, []⟩ {}
          = .ok (nodes', after.layout) read'
        ∧ NodesLike nodes nodes' ∧ after.assembly.Like read' :=
    fun {nodes' wide} hwide hnodes hshares =>
      ⟨nodes', wide.assembly, readStatements_eq_ok.mpr ⟨wide, hwide, hshares.layout.symm, rfl⟩,
        hnodes, hshares.assembly⟩
  cases hcrosses.above gap rfl (first_parts htext hwider) hguarded with
  | breaks stops => exact absurd stops (hlists.not_breaks hfuel)
  | inStep widened _ results _ parts => exact hfound widened results parts.shares
  | past _ widened results like => exact hfound widened results like.toShares
  | spent raw => cases raw

/-- **Blank lines are neutral.**  In a gap of a template outside of attribute lists and of raw
    bodies, an empty line or a line of spaces more leaves composing successful and the tree
    unchanged apart from line numbers. -/
theorem blankLine_neutral (config : Config) (gap : Gap) (text wider : String)
    (filename : Option String) (htext : Text.normalizeNewlines text.toList = gap.text)
    (hwider : Text.normalizeNewlines wider.toList = gap.widened)
    (hlists : gap.OutsideLists config filename)
    (hraw : gap.OutsideRawBodies config ⟨text, filename, []⟩) (tree : Tree)
    (hparse : parseText config text filename = .ok tree) :
    ∃ tree', parseText config wider filename = .ok tree' ∧ tree'.lineless = tree.lineless := by
  obtain ⟨fuel, hfuel⟩ := config.chainBound_pos
  have hcompose : ∀ text, compose config text filename
      = composeStep config (composeWith config fuel) ⟨text, filename, []⟩ := by
    intro text
    rw [compose, hfuel]
    rfl
  obtain ⟨composed, after, hrun, rfl⟩ := parseText_eq_ok.mp hparse
  rw [hcompose] at hrun
  obtain ⟨⟨nodes, layout?⟩, read, hread, -⟩ := Parse.bind_eq_ok hrun
  obtain ⟨nodes', read', hread', hnodes, hlike⟩ :=
    readStatements_gap hfuel htext hwider hlists hraw hread
  obtain ⟨composed', after', hrun', hcomposed, hafter⟩ :=
    composeStep_like ⟨text, filename, []⟩ ⟨wider, filename, []⟩
      (mirroring_composeWith config fuel) rfl rfl hread hread' hnodes hlike hrun
  rw [← hcompose] at hrun'
  refine ⟨_, parseText_eq_ok.mpr ⟨composed', after', hrun', rfl⟩, ?_⟩
  rw [lineless_finish, lineless_finish, hafter.store, hcomposed.root.ofBlock]

/-- What two runs give can be compared. -/
instance decidableEqResult {σ α : Type} [DecidableEq σ] [DecidableEq α] :
    DecidableEq (EStateM.Result Fault σ α)
  | .ok result state, .ok result' state' =>
      decidable_of_iff (result = result' ∧ state = state') (by rw [EStateM.Result.ok.injEq])
  | .error fault state, .error fault' state' =>
      decidable_of_iff (fault = fault' ∧ state = state') (by rw [EStateM.Result.error.injEq])
  | .ok _ _, .error _ _ => .isFalse fun h => by cases h
  | .error _ _, .ok _ _ => .isFalse fun h => by cases h

/-- A page with a script, and the gap between an item of its list and the text of that item. -/
def listGap : Gap where
  before := "ul\n  script\n    a\n  li".toList
  line := "   ".toList
  after := "    | b\np(c='d')".toList
  blank := by decide

theorem blankLine_neutral_listGap :
    ∃ tree tree', parseText {} (String.ofList listGap.text) "views/page.jade" = .ok tree
      ∧ parseText {} (String.ofList listGap.widened) "views/page.jade" = .ok tree'
      ∧ tree'.lineless = tree.lineless := by
  have hok : (parseText {} (String.ofList listGap.text) "views/page.jade").isOk = true := by
    decide +kernel
  have hlists : listGap.OutsideLists {} (some "views/page.jade") := by
    intro fault hfault
    have hok : (parseText {} (String.ofList listGap.before) "views/page.jade").isOk = true := by
      decide +kernel
    rw [hfault] at hok
    cases hok
  have hraw : listGap.OutsideRawBodies {}
      ⟨String.ofList listGap.text, some "views/page.jade", []⟩ := by
    unfold Gap.OutsideRawBodies
    dsimp only
    decide +kernel
  cases hparse : parseText {} (String.ofList listGap.text) "views/page.jade" with
  | error fault =>
      rw [hparse] at hok
      cases hok
  | ok tree =>
      obtain ⟨tree', hwider, hsame⟩ := blankLine_neutral {} listGap (String.ofList listGap.text)
        (String.ofList listGap.widened) (some "views/page.jade") (by decide +kernel)
        (by decide +kernel) hlists hraw tree hparse
      exact ⟨tree, tree', rfl, hwider, hsame⟩

end Neutral

/-- **A line of tabs is not blank**, and a filter with an attribute list does not look past a blank
    line for its body: a loop whose body is behind a line of tabs is refused, and so is a filter
    whose body is behind an empty line. -/
theorem blankLine_counted :
    (parseText {} "each v in xs\n\tp" "views/page.jade").isOk = true
      ∧ parseText {} "each v in xs\n\t\n\tp" "views/page.jade"
        = .error ⟨.mismatch .indent .newline, ⟨some 2, some "views/page.jade"⟩⟩
      ∧ (parseText {} ":f(a=1)\n\tx" "views/page.jade").isOk = true
      ∧ parseText {} ":f(a=1)\n\n\tx" "views/page.jade"
        = .error ⟨.mismatch .indent .text, ⟨some 2, some "views/page.jade"⟩⟩ := by
  decide +kernel

end Stencil
