import Stencil.Proofs.Composition.Ancestry
import Stencil.Proofs.Composition.Blame

/-! # Culprits — the template in which a composition stops

    A composition that fails stops in one template: `StopsIn` goes from the
    template that is composed to that one.  A template stops itself when its
    reading fails whatever the compositions that fail would have given; it stops
    with one that it includes when its reading fails for whatever fault that one
    stops for; and it stops with its layout after it was read.  There is exactly
    one such template (`StopsIn.unique`), and the place that is told is a line of
    its source, under its name (`fault_placed`). -/

namespace Stencil

variable {config : Config} {compose : Composer} {source child culprit : Source}
  {before middle after : Assembly} {fault : Fault} {fuel : Nat}

/-- Reading a source stops for a fault of its own: it does so whatever the compositions that fail
    would have given. -/
def StopsItself (config : Config) (compose : Composer) (source : Source) (before : Assembly)
    (fault : Fault) : Prop :=
  ∀ other, Mends other compose →
    ∃ after, readStatements config other source before = .error fault after

/-- Reading a source stops when another one is composed in some state, for whatever fault that one
    stops for. -/
def StopsWith (config : Config) (compose : Composer) (source : Source) (before : Assembly)
    (child : Source) (middle : Assembly) : Prop :=
  ∀ other, Mends other compose → ∀ fault after, other child middle = .error fault after →
    ∃ last, readStatements config other source before = .error fault last

/-- The template in which composing a source stops for a fault. -/
inductive StopsIn (config : Config) : Nat → Source → Assembly → Fault → Source → Prop where
  | itself {fuel : Nat} {source : Source} {before : Assembly} {fault : Fault}
      (stops : StopsItself config (composeWith config fuel) source before fault) :
      StopsIn config (fuel + 1) source before fault source
  | included {fuel : Nat} {source child culprit : Source} {before middle : Assembly}
      {fault : Fault} (spawns : Spawns config source child)
      (stops : StopsWith config (composeWith config fuel) source before child middle)
      (inside : StopsIn config fuel child middle fault culprit) :
      StopsIn config (fuel + 1) source before fault culprit
  | layout {fuel : Nat} {source culprit : Source} {before read : Assembly} {fault : Fault}
      {nodes : List Draft} {layout : Layout} (spawns : Spawns config source (layout.source source))
      (reads : readStatements config (composeWith config fuel) source before
        = .ok (nodes, some layout) read)
      (inside : StopsIn config fuel (layout.source source) { read with mixins := .empty } fault
        culprit) :
      StopsIn config (fuel + 1) source before fault culprit

/-! ## Every composition that fails stops somewhere -/

/-- Composing a template fails when it is read, or when its layout is composed. -/
theorem composeStep_eq_error (h : composeStep config compose source before = .error fault after) :
    readStatements config compose source before = .error fault after
      ∨ ∃ nodes layout read last, readStatements config compose source before
          = .ok (nodes, some layout) read
        ∧ compose (layout.source source) { read with mixins := .empty } = .error fault last := by
  rcases bind_eq_error h with hread | ⟨⟨nodes, layout?⟩, read, hread, hrest⟩
  · exact .inl hread
  · cases layout? with
    | none => exact nomatch hrest
    | some layout =>
        rcases bind_eq_error hrest with hlayout | ⟨root, made, -, hpure⟩
        · replace hlayout : (compose (layout.source source) >>= fun composed =>
              modify (fun assembly => { assembly with mixins := read.mixins }) >>= fun _ =>
                hoistMixins layout composed.root) { read with mixins := .empty }
              = .error fault after := hlayout
          rcases bind_eq_error hlayout with hcompose | ⟨composed, made, -, hhoist⟩
          · exact .inr ⟨nodes, layout, read, after, hread, hcompose⟩
          · obtain ⟨_, _, hok⟩ :=
              hoistMixins_eq_ok layout composed.root { made with mixins := read.mixins }
            cases hok.symm.trans hhoist
        · cases hpure

/-- The number of lines of a text. -/
def countLines (text : String) : Nat :=
  Text.countNewlines (Text.normalizeNewlines text.toList) + 1

/-- Reading a source is traced. -/
theorem traced_document (config : Config) (compose : Composer) (source : Source)
    (before : Assembly) :
    Parse.Traced (source.template config compose before.templates) (countLines source.text)
      (fun other => Parse.document (source.template config other before.templates))
      (fun nodes after => Parse.anyResult nodes ∧ after.lexer.Spans (countLines source.text))
      (source.begin config before) :=
  Parse.traces_document _ (Lexer.spans_ofSource source.text config.colons)

/-- A reading that fails does so for a fault of its own, on a line of the source, or with a template
    that it includes. -/
theorem readStatements_stops
    (h : readStatements config compose source before = .error fault after) :
    (StopsItself config compose source before fault
        ∧ fault.Points source.filename (countLines source.text))
      ∨ ∃ child middle last, Spawns config source child
        ∧ StopsWith config compose source before child middle
        ∧ compose child middle = .error fault last := by
  cases traced_document config compose source before with
  | @answers nodes read same ends =>
      have hread := readStatements_eq_ok.mpr ⟨read, same compose (.refl compose), rfl, rfl⟩
      cases hread.symm.trans h
  | @stops found read same points =>
      have hstops : ∀ other, Mends other compose → readStatements config other source before
          = .error found read.assembly := fun other hmends =>
        readStatements_of_fault (same other hmends)
      cases (hstops compose (.refl compose)).symm.trans h
      exact .inl ⟨fun other hmends => ⟨_, hstops other hmends⟩, points⟩
  | @passes child middle names fails same =>
      have hstops : StopsWith config compose source before child middle := by
        intro other hmends found last hfound
        obtain ⟨read, hread⟩ := same other hmends found last hfound
        exact ⟨_, readStatements_of_fault hread⟩
      obtain ⟨found, last, hfound⟩ := fails
      obtain ⟨read, hread⟩ := hstops compose (.refl compose) found last hfound
      cases hread.symm.trans h
      exact .inr ⟨child, middle, last, ⟨names.lineage, names.loaded⟩, hstops, hfound⟩

/-- A reading that succeeds does so with every way to compose that agrees where it is needed. -/
theorem readStatements_of_mends {other : Composer} (hmends : Mends other compose)
    {result : List Draft × Option Layout}
    (h : readStatements config compose source before = .ok result after) :
    readStatements config other source before = .ok result after := by
  obtain ⟨nodes, layout?⟩ := result
  obtain ⟨read, hread, hlayout, hafter⟩ := readStatements_eq_ok.mp h
  cases traced_document config compose source before with
  | answers same =>
      cases hread.symm.trans (same compose (.refl compose))
      exact readStatements_eq_ok.mpr ⟨read, same other hmends, hlayout, hafter⟩
  | stops same => cases hread.symm.trans (same compose (.refl compose))
  | passes names fails same =>
      obtain ⟨found, last, hfound⟩ := fails
      obtain ⟨stopped, hstopped⟩ := same compose (.refl compose) found last hfound
      cases hread.symm.trans hstopped

/-- A composition that fails, and not for lack of fuel, stops in a template, on one of its lines. -/
theorem stopsIn_of_error : ∀ {source : Source} {before after : Assembly},
    composeWith config fuel source before = .error fault after → fault.cause ≠ .exhausted →
      ∃ culprit, StopsIn config fuel source before fault culprit
        ∧ fault.Points culprit.filename (countLines culprit.text) := by
  induction fuel with
  | zero =>
      intro source before after h hcause
      cases h
      exact absurd rfl hcause
  | succ fuel ih =>
      intro source before after h hcause
      rcases composeStep_eq_error h with hread | ⟨nodes, layout, read, last, hread, hlayout⟩
      · rcases readStatements_stops hread with ⟨hstops, hpoints⟩
          | ⟨child, middle, last, hspawns, hstops, hcompose⟩
        · exact ⟨source, .itself hstops, hpoints⟩
        · obtain ⟨culprit, hinside, hpoints⟩ := ih hcompose hcause
          exact ⟨culprit, .included hspawns hstops hinside, hpoints⟩
      · obtain ⟨culprit, hinside, hpoints⟩ := ih hlayout hcause
        have hspawns : Spawns config source (layout.source source) :=
          (readStatements_congr (fun _ _ => rfl) before).2 nodes (some layout) read hread layout rfl
        exact ⟨culprit, .layout hspawns hread hinside, hpoints⟩

/-! ## It stops in one template alone -/

/-- A fault in composing a layout is one in composing the template. -/
theorem composeWith_of_layout_fault {nodes : List Draft} {layout : Layout} {read : Assembly}
    (hread : readStatements config (composeWith config fuel) source before
      = .ok (nodes, some layout) read)
    (hcompose : composeWith config fuel (layout.source source) { read with mixins := .empty }
      = .error fault after) :
    composeWith config (fuel + 1) source before = .error fault after := by
  have hlayout : composeLayout (composeWith config fuel) source layout read
      = .error fault after := by
    show EStateM.bind (composeWith config fuel (layout.source source)) _
      { read with mixins := .empty } = _
    rw [EStateM.bind, hcompose]
  show EStateM.bind (readStatements config (composeWith config fuel) source) _ before = _
  rw [EStateM.bind, hread]
  show EStateM.bind (composeLayout (composeWith config fuel) source layout) _ read = _
  rw [EStateM.bind, hlayout]

/-- What stops in a template fails for its fault. -/
theorem StopsIn.fails (h : StopsIn config fuel source before fault culprit) :
    ∃ after, composeWith config fuel source before = .error fault after := by
  induction h with
  | itself stops =>
      obtain ⟨after, hread⟩ := stops _ (.refl _)
      exact ⟨after, composeWith_of_fault hread⟩
  | included spawns stops inside ih =>
      obtain ⟨last, hcompose⟩ := ih
      obtain ⟨after, hread⟩ := stops _ (.refl _) _ _ hcompose
      exact ⟨after, composeWith_of_fault hread⟩
  | layout spawns reads inside ih =>
      obtain ⟨last, hcompose⟩ := ih
      exact ⟨last, composeWith_of_layout_fault reads hcompose⟩

open scoped Classical in
/-- Composes as another way does, but stops for a fault at one source in one state. -/
noncomputable def stoppingAt (compose : Composer) (child : Source) (middle : Assembly)
    (fault : Fault) : Composer := fun source assembly =>
  if source = child ∧ assembly = middle then .error fault assembly else compose source assembly

theorem stoppingAt_self (compose : Composer) (child : Source) (middle : Assembly)
    (fault : Fault) : stoppingAt compose child middle fault child middle = .error fault middle :=
  if_pos ⟨rfl, rfl⟩

theorem stoppingAt_of_ne {assembly : Assembly} (h : ¬ (source = child ∧ assembly = middle)) :
    stoppingAt compose child middle fault source assembly = compose source assembly :=
  if_neg h

/-- Another fault changes nothing where the composition fails anyway. -/
theorem mends_stoppingAt {found : Fault} {last : Assembly}
    (h : compose child middle = .error found last) :
    Mends (stoppingAt compose child middle fault) compose := by
  intro source assembly composed after hcomposed
  have hne : ¬ (source = child ∧ assembly = middle) := by
    rintro ⟨rfl, rfl⟩
    cases h.symm.trans hcomposed
  rw [stoppingAt_of_ne hne, hcomposed]

theorem exists_fault_ne (fault : Fault) : ∃ other : Fault, other ≠ fault := by
  by_cases h : fault = ⟨.exhausted, {}⟩
  · exact ⟨⟨.unnamedExtends, {}⟩, by rw [h]; decide⟩
  · exact ⟨_, Ne.symm h⟩

/-- A reading that stops with another template does not stop itself. -/
theorem StopsItself.not_with (h : StopsItself config compose source before fault) {found : Fault}
    {last : Assembly} (hfound : compose child middle = .error found last) :
    ¬ StopsWith config compose source before child middle := by
  intro hwith
  obtain ⟨other, hne⟩ := exists_fault_ne fault
  have hmends : Mends (stoppingAt compose child middle other) compose := mends_stoppingAt hfound
  obtain ⟨after, hitself⟩ := h _ hmends
  obtain ⟨after', hother⟩ := hwith _ hmends other middle (stoppingAt_self ..)
  cases hother.symm.trans hitself
  exact hne rfl

/-- A reading stops with one template, in one state. -/
theorem StopsWith.unique (h : StopsWith config compose source before child middle)
    {child' : Source} {middle' : Assembly}
    (h' : StopsWith config compose source before child' middle') {found found' : Fault}
    {last last' : Assembly} (hfound : compose child middle = .error found last)
    (hfound' : compose child' middle' = .error found' last') :
    child' = child ∧ middle' = middle := by
  by_contra hne
  obtain ⟨other, hother⟩ := exists_fault_ne found'
  -- only the first of the two stops for another fault
  have hmends : Mends (stoppingAt compose child middle other) compose := mends_stoppingAt hfound
  obtain ⟨after, hread⟩ := h _ hmends other middle (stoppingAt_self ..)
  obtain ⟨after', hread'⟩ := h' _ hmends found' last' ((stoppingAt_of_ne hne).trans hfound')
  cases hread.symm.trans hread'
  exact hother rfl

/-- **A composition stops in one template.** -/
theorem StopsIn.unique (h : StopsIn config fuel source before fault culprit) :
    ∀ {other : Source}, StopsIn config fuel source before fault other → other = culprit := by
  induction h with
  | itself stops =>
      intro other hother
      cases hother with
      | itself => rfl
      | included _ stops' inside =>
          obtain ⟨last, hfound⟩ := inside.fails
          exact absurd stops' (stops.not_with hfound)
      | layout _ reads _ =>
          obtain ⟨after, hread⟩ := stops _ (.refl _)
          cases hread.symm.trans reads
  | included spawns stops inside ih =>
      intro other hother
      obtain ⟨last, hfound⟩ := inside.fails
      cases hother with
      | itself stops' => exact absurd stops (stops'.not_with hfound)
      | included _ stops' inside' =>
          obtain ⟨last', hfound'⟩ := inside'.fails
          obtain ⟨rfl, rfl⟩ := stops.unique stops' hfound hfound'
          exact ih inside'
      | layout _ reads _ =>
          obtain ⟨after, hread⟩ := stops _ (.refl _) _ _ hfound
          cases hread.symm.trans reads
  | layout spawns reads inside ih =>
      intro other hother
      cases hother with
      | itself stops' =>
          obtain ⟨after, hread⟩ := stops' _ (.refl _)
          cases hread.symm.trans reads
      | included _ stops' inside' =>
          obtain ⟨last, hfound⟩ := inside'.fails
          obtain ⟨after, hread⟩ := stops' _ (.refl _) _ _ hfound
          cases hread.symm.trans reads
      | layout _ reads' inside' =>
          cases reads.symm.trans reads'
          exact ih inside'

/-! ## The place that is told -/

/-- A diagnostic of a template tells the place of its fault, and never that fuel was short. -/
theorem Fault.place_of_diagnostic {concern : Concern} {told : String} {place : Place}
    (h : fault.diagnostic = .template concern told place) :
    place = fault.place ∧ fault.cause ≠ .exhausted := by
  obtain ⟨cause, found⟩ := fault
  cases cause with
  | lexical cause => cases cause <;> cases h <;> exact ⟨rfl, nofun⟩
  | load cause path => cases cause <;> cases h <;> exact ⟨rfl, nofun⟩
  | mismatch => cases h; exact ⟨rfl, nofun⟩
  | unexpected => cases h; exact ⟨rfl, nofun⟩
  | indentedLiteral => cases h; exact ⟨rfl, nofun⟩
  | duplicateExtends => cases h; exact ⟨rfl, nofun⟩
  | cycle => cases h; exact ⟨rfl, nofun⟩
  | unnamedExtends => cases h
  | unnamedInclude => cases h
  | exhausted => cases h

/-- **Errors point into the right file.**  When composing a template fails with a diagnostic about
    a template, it stopped in exactly one of those that were being composed, and the place that is
    told has the name of that one and the number of one of its lines. -/
theorem fault_placed (config : Config) (text : String) (filename : Option String)
    (before : Assembly) {fault : Fault} {after : Assembly} {concern : Concern} {told : String}
    {place : Place} (hrun : Stencil.compose config text filename before = .error fault after)
    (htold : fault.diagnostic = .template concern told place) :
    ∃ culprit, StopsIn config config.chainBound (.entry text filename) before fault culprit
      ∧ (∀ other, StopsIn config config.chainBound (.entry text filename) before fault other →
        other = culprit)
      ∧ place.filename = culprit.filename
      ∧ ∃ line, place.line = some line ∧ 1 ≤ line
        ∧ line ≤ (Text.countNewlines (Text.normalizeNewlines culprit.text.toList) + 1 : Nat) := by
  obtain ⟨rfl, hcause⟩ := Fault.place_of_diagnostic htold
  obtain ⟨culprit, hstops, hpoints⟩ := stopsIn_of_error hrun hcause
  rcases hpoints with hexhausted | ⟨line, hplace, hfirst, hlast⟩
  · exact absurd hexhausted hcause
  · rw [hplace]
    exact ⟨culprit, hstops, fun other hother => hstops.unique hother, rfl, line, rfl, hfirst, hlast⟩

/-- The fault that a run fails for. -/
def faultOf? : EStateM.Result Fault Assembly Composed → Option Fault
  | .ok _ _ => none
  | .error fault _ => some fault

theorem faultOf?_eq_some {result : EStateM.Result Fault Assembly Composed} :
    faultOf? result = some fault ↔ ∃ after, result = .error fault after := by
  cases result with
  | ok composed after => exact ⟨nofun, fun ⟨_, h⟩ => nomatch h⟩
  | error found after =>
      refine ⟨fun h => ⟨after, by rw [Option.some.inj h]⟩, ?_⟩
      rintro ⟨_, ⟨⟩⟩
      rfl

/-- A layout that includes a part whose fourth line is indented with both characters. -/
def uneven : OrderedMap String String :=
  .ofList [("views/layout.jade", "h1\ninclude part\n"), ("views/part.jade", "ul\n  li\n\n \tp\n")]

/-- The page has a line alone, and the fault is told for the part that its layout includes. -/
theorem fault_placed_uneven :
    ∃ fault after, Stencil.compose (({} : Config).withTemplates uneven) "extends layout"
        (some "views/page.jade") {} = .error fault after
      ∧ fault.diagnostic = .template .lexical
        "Invalid indentation, you can use tabs or spaces but not both"
        ⟨some 4, some "views/part.jade"⟩
      ∧ ∃ culprit, StopsIn (({} : Config).withTemplates uneven)
          (({} : Config).withTemplates uneven).chainBound
          (.entry "extends layout" (some "views/page.jade")) {} fault culprit
        ∧ culprit.filename = some "views/part.jade"
        ∧ (4 : Int)
          ≤ (Text.countNewlines (Text.normalizeNewlines culprit.text.toList) + 1 : Nat) := by
  have hfault : faultOf? (Stencil.compose (({} : Config).withTemplates uneven) "extends layout"
      (some "views/page.jade") {})
      = some ⟨.lexical .mixedIndentation, ⟨some 4, some "views/part.jade"⟩⟩ := by decide +kernel
  obtain ⟨after, hrun⟩ := faultOf?_eq_some.mp hfault
  have hplaced := fault_placed (({} : Config).withTemplates uneven) "extends layout"
    (some "views/page.jade") {} hrun rfl
  obtain ⟨culprit, hstops, -, hname, line, hline, -, hlast⟩ := hplaced
  cases hline
  exact ⟨_, after, hrun, rfl, culprit, hstops, hname.symm, hlast⟩

end Stencil
