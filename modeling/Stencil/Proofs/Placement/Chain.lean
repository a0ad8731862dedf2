import Stencil.Proofs.Composition.Root
import Stencil.Proofs.Placement.Account
import Stencil.Proofs.Placement.Statements

/-! # Chains — templates that extend one another

    A chain of layouts is read from the most derived template on.  `ByLayouts`
    says that nothing else is composed: no template includes another one, and
    no mixin is moved into a layout, as each that is defined has its place in
    the tree.  `Recorded` adds what every template draws, and with it the
    ledger of the chain; every such chain that is composed has one
    (`exists_recorded`), and the account of the drawings is kept along the chain
    (`Recorded.account`). -/

namespace Stencil.Placement

open Parse

variable {config : Config} {source : Source} {fuel : Nat}

/-! ## What composing does to the shared state -/

/-- Reading a template counts it, and draws its nodes when no other template is composed on the
    way. -/
theorem readStatements_draws {compose : Source → Assemble Composed} (hcounts : Counts compose)
    {before read : Assembly} {nodes : List Draft} {layout : Option Layout}
    (hrun : readStatements config compose source before = .ok (nodes, layout) read) :
    before.templates < read.templates
      ∧ (read.templates = before.templates + 1 → ∀ ledger, ∃ tops after,
        Drawn before.templates ⟨before.store, before.registry, ledger⟩ [] tops nodes
          ⟨read.store, read.registry, after⟩) := by
  obtain ⟨after, hdocument, rfl, rfl⟩ := readStatements_eq_ok.mp hrun
  have hcompose : Counts (source.template config compose before.templates).compose := hcounts
  have hdraws := (draws_document hcompose).from
  refine ⟨(hdraws {} _ _ _ hdocument).1, fun hsame ledger => ?_⟩
  exact (hdraws ⟨before.store, before.registry, ledger⟩ _ _ _ hdocument).2 hsame ⟨rfl, rfl⟩

/-- Moving mixins changes the store and the log alone: the definitions without a place are put to
    the front of the root's current nodes. -/
theorem hoistMixins_eq_ok {layout : Layout} {root placed : Block BlockId Draft}
    {before after : Assembly} (hrun : hoistMixins layout root before = .ok placed after) :
    let moved := homelessMixins before.mixins (.ofBlock (before.store.resolveBlock root))
    ∃ store log, after = { before with store, log }
      ∧ (moved = [] ∧ placed = root ∧ store = before.store
        ∨ store = before.store.write placed
          ∧ placed = { before.store.read root with
            nodes := moved ++ (before.store.read root).nodes }) := by
  obtain ⟨assembly, _, hget, hrest⟩ := bind_eq_ok hrun
  cases hget
  cases hmoved : homelessMixins before.mixins (.ofBlock (before.store.resolveBlock root)) with
  | nil =>
      simp only [hmoved] at hrest
      cases hrest
      exact ⟨_, _, rfl, .inl ⟨rfl, rfl, rfl⟩⟩
  | cons mixin mixins =>
      simp only [hmoved] at hrest
      cases hrest
      exact ⟨_, _, rfl, .inr ⟨rfl, rfl⟩⟩

theorem hoistMixins_templates {layout : Layout} {root placed : Block BlockId Draft}
    {before after : Assembly} (hrun : hoistMixins layout root before = .ok placed after) :
    after.templates = before.templates := by
  obtain ⟨_, _, rfl, -⟩ := hoistMixins_eq_ok hrun
  rfl

/-- Where every mixin has a place, none is moved. -/
theorem hoistMixins_of_placed (layout : Layout) {root : Block BlockId Draft} {assembly : Assembly}
    (h : homelessMixins assembly.mixins (.ofBlock (assembly.store.resolveBlock root)) = []) :
    hoistMixins layout root assembly = .ok root assembly := by
  have hget : (get : Assemble Assembly).run assembly = .ok assembly assembly := rfl
  show (hoistMixins layout root).run assembly = _
  rw [hoistMixins, EStateM.run_bind, hget]
  dsimp only
  rw [h]
  rfl

/-- The source of a layout that a template extends. -/
def layoutSource (layout : Layout) (source : Source) : Source :=
  { text := layout.text, filename := some layout.path, lineage := source.path }

/-- What a layout is composed on: the state after the template, without its mixins. -/
def forLayout (read : Assembly) : Assembly := { read with mixins := .empty }

/-- Composing a layout composes its template without the mixins, and then moves them. -/
theorem composeLayout_eq_ok {compose : Source → Assemble Composed} {layout : Layout}
    {root : Block BlockId Draft} {before after : Assembly}
    (hrun : composeLayout compose source layout before = .ok root after) :
    ∃ composed middle,
      compose (layoutSource layout source) (forLayout before) = .ok composed middle
        ∧ hoistMixins layout composed.root { middle with mixins := before.mixins }
          = .ok root after := by
  obtain ⟨assembly, _, hget, hrest⟩ := bind_eq_ok hrun
  cases hget
  obtain ⟨_, _, hmodify, hrest⟩ := bind_eq_ok hrest
  cases hmodify
  obtain ⟨composed, middle, hcompose, hrest⟩ := bind_eq_ok hrest
  obtain ⟨_, _, hmodify, hrest⟩ := bind_eq_ok hrest
  cases hmodify
  exact ⟨composed, middle, hcompose, hrest⟩

/-- A step of composing reads the template, and gives its tree or that of its layout. -/
theorem composeStep_eq_ok {compose : Source → Assemble Composed} {composed : Composed}
    {before after : Assembly}
    (hrun : composeStep config compose source before = .ok composed after) :
    ∃ nodes layout? read,
      readStatements config compose source before = .ok (nodes, layout?) read
        ∧ match layout? with
          | none => newRoot source.filename nodes read = .ok composed.root after
          | some layout => composeLayout compose source layout read = .ok composed.root after := by
  obtain ⟨⟨nodes, layout?⟩, read, hread, hrest⟩ := bind_eq_ok hrun
  refine ⟨nodes, layout?, read, hread, ?_⟩
  cases layout? with
  | none =>
      obtain ⟨root, middle, hroot, hrest⟩ := bind_eq_ok hrest
      cases hrest
      exact hroot
  | some layout =>
      obtain ⟨root, middle, hroot, hrest⟩ := bind_eq_ok hrest
      cases hrest
      exact hroot

/-- Composing counts the templates. -/
theorem counts_composeWith (config : Config) (fuel : Nat) : Counts (composeWith config fuel) := by
  induction fuel with
  | zero => rintro source before composed after ⟨⟩
  | succ fuel ih =>
      intro source before composed after hrun
      obtain ⟨nodes, layout?, read, hread, hrest⟩ := composeStep_eq_ok hrun
      obtain ⟨root, layout⟩ := composed
      have hlt := (readStatements_draws ih hread).1
      cases layout? with
      | none =>
          cases hrest
          exact hlt
      | some layout =>
          obtain ⟨inner, middle, hcompose, hhoist⟩ := composeLayout_eq_ok hrest
          have hinner : read.templates < middle.templates := ih _ (forLayout read) _ _ hcompose
          rw [hoistMixins_templates hhoist]
          exact Nat.lt_trans hlt hinner

/-! ## Chains -/

/-- Composing goes by layouts alone: the templates of the chain compose no others on the way, and
    their mixins have places in the tree of the layout. -/
inductive ByLayouts (config : Config) : Nat → Source → Assembly → Prop where
  | root {fuel : Nat} {source : Source} {before read : Assembly} {nodes : List Draft} :
      readStatements config (composeWith config fuel) source before = .ok (nodes, none) read →
        read.templates = before.templates + 1 → ByLayouts config (fuel + 1) source before
  | layout {fuel : Nat} {source : Source} {before read last : Assembly} {nodes : List Draft}
      {layout : Layout} {inner : Composed} :
      readStatements config (composeWith config fuel) source before
          = .ok (nodes, some layout) read →
        read.templates = before.templates + 1 →
          ByLayouts config fuel (layoutSource layout source) (forLayout read) →
            composeWith config fuel (layoutSource layout source) (forLayout read)
                = .ok inner last →
              homelessMixins read.mixins (.ofBlock (last.store.resolveBlock inner.root)) = [] →
                ByLayouts config (fuel + 1) source before

/-- Whether composing goes by layouts alone, by composing the chain. -/
def goesByLayouts (config : Config) : Nat → Source → Assembly → Bool
  | 0, _, _ => false
  | fuel + 1, source, before =>
      match readStatements config (composeWith config fuel) source before with
      | .error _ _ => false
      | .ok (_, none) read => read.templates == before.templates + 1
      | .ok (_, some layout) read =>
          read.templates == before.templates + 1
            && goesByLayouts config fuel (layoutSource layout source) (forLayout read)
            && match composeWith config fuel (layoutSource layout source) (forLayout read) with
              | .error _ _ => false
              | .ok inner last =>
                  (homelessMixins read.mixins (.ofBlock (last.store.resolveBlock inner.root))).isEmpty

theorem goesByLayouts_iff (config : Config) (fuel : Nat) : ∀ (source : Source) (before : Assembly),
    goesByLayouts config fuel source before = true ↔ ByLayouts config fuel source before := by
  induction fuel with
  | zero => exact fun source before => ⟨nofun, nofun⟩
  | succ fuel ih =>
      intro source before
      rw [goesByLayouts]
      constructor
      · intro hgoes
        split at hgoes
        · exact nomatch hgoes
        · next hread => exact .root hread (beq_iff_eq.mp hgoes)
        · next layout read hread =>
            simp only [Bool.and_eq_true, beq_iff_eq] at hgoes
            obtain ⟨⟨htemplates, hlayout⟩, hmixins⟩ := hgoes
            split at hmixins
            · exact nomatch hmixins
            · next hinner =>
                exact .layout hread htemplates ((ih _ _).mp hlayout) hinner
                  (List.isEmpty_iff.mp hmixins)
      · intro hlayouts
        cases hlayouts with
        | root hread htemplates =>
            rw [hread]
            exact beq_iff_eq.mpr htemplates
        | layout hread htemplates hlayout hinner hmixins =>
            rw [hread]
            simp only [Bool.and_eq_true, beq_iff_eq, hinner, hmixins, List.isEmpty_nil, and_true]
            exact ⟨htemplates, (ih _ _).mpr hlayout⟩

instance (config : Config) (fuel : Nat) (source : Source) (before : Assembly) :
    Decidable (ByLayouts config fuel source before) :=
  decidable_of_iff _ (goesByLayouts_iff config fuel source before)

/-- What the templates of a chain draw, one after another: the mentions outside of others and the
    root block of the last layout, and the book at the end. -/
inductive Recorded (config : Config) :
    Nat → Source → Assembly → Ledger → List Nat → Block BlockId Draft → Book → Prop where
  | root {fuel : Nat} {source : Source} {before read : Assembly} {nodes : List Draft}
      {ledger after : Ledger} {tops : List Nat} :
      readStatements config (composeWith config fuel) source before = .ok (nodes, none) read →
        Drawn before.templates ⟨before.store, before.registry, ledger⟩ [] tops nodes
            ⟨read.store, read.registry, after⟩ →
          Recorded config (fuel + 1) source before ledger tops
            { id := read.store.next, line := 1, props := { filename := source.filename }, nodes }
            ⟨read.store.taken, read.registry, after⟩
  | layout {fuel : Nat} {source : Source} {before read : Assembly} {nodes : List Draft}
      {layout : Layout} {ledger middle : Ledger} {hidden tops : List Nat}
      {root : Block BlockId Draft} {book : Book} :
      readStatements config (composeWith config fuel) source before
          = .ok (nodes, some layout) read →
        Drawn before.templates ⟨before.store, before.registry, ledger⟩ [] hidden nodes
            ⟨read.store, read.registry, middle⟩ →
          Recorded config fuel (layoutSource layout source) (forLayout read) middle tops root
              book →
            Recorded config (fuel + 1) source before ledger tops root book

/-- A template with a layout is composed to the layout, if no mixin is moved. -/
theorem composeWith_of_layout {before read last : Assembly} {nodes : List Draft} {layout : Layout}
    {inner : Composed}
    (hread : readStatements config (composeWith config fuel) source before
      = .ok (nodes, some layout) read)
    (hinner : composeWith config fuel (layoutSource layout source) (forLayout read)
      = .ok inner last)
    (hplaced : homelessMixins read.mixins (.ofBlock (last.store.resolveBlock inner.root)) = []) :
    composeWith config (fuel + 1) source before
      = .ok { root := inner.root, layout := some layout.path }
        { last with mixins := read.mixins } := by
  have hkept : hoistMixins layout inner.root { last with mixins := read.mixins } = .ok _ _ :=
    hoistMixins_of_placed layout hplaced
  have hlayout : composeLayout (composeWith config fuel) source layout read
      = .ok inner.root { last with mixins := read.mixins } := by
    show EStateM.bind (composeWith config fuel (layoutSource layout source)) _ (forLayout read) = _
    rw [EStateM.bind, hinner]
    exact hkept
  show EStateM.bind (readStatements config (composeWith config fuel) source) _ before = _
  rw [EStateM.bind, hread]
  show EStateM.bind (composeLayout (composeWith config fuel) source layout) _ read = _
  rw [EStateM.bind, hlayout]
  rfl

/-- **Every chain is composed and recorded.** -/
theorem exists_recorded {before : Assembly} (h : ByLayouts config fuel source before) :
    ∀ ledger, ∃ composed after tops mentions,
      composeWith config fuel source before = .ok composed after
        ∧ Recorded config fuel source before ledger tops composed.root
          ⟨after.store, after.registry, mentions⟩ := by
  induction h with
  | @root fuel source before read nodes hread halone =>
      intro ledger
      obtain ⟨tops, mentions, hdrawn⟩ :=
        (readStatements_draws (counts_composeWith config fuel) hread).2 halone ledger
      exact ⟨_, _, tops, mentions, composeWith_of_root hread, .root hread hdrawn⟩
  | @layout fuel source before read last nodes layout inner hread halone _ hinner hplaced ih =>
      intro ledger
      obtain ⟨hidden, middle, hdrawn⟩ :=
        (readStatements_draws (counts_composeWith config fuel) hread).2 halone ledger
      obtain ⟨inner', last', tops, mentions, hinner', hrecorded⟩ := ih middle
      cases hinner.symm.trans hinner'
      exact ⟨_, _, tops, mentions, composeWith_of_layout hread hinner hplaced,
        .layout hread hdrawn hrecorded⟩

/-! ## The account of a chain -/

theorem Account.of_le {owner other : Nat} {book : Book} {slots : Nat → Slot}
    {spare : List BlockId} {pending : List Nat} (h : Account owner book slots spare pending)
    (hle : owner ≤ other) : Account other book slots spare pending :=
  ⟨h.settled, h.names, fun i hi => Nat.le_trans (h.owners i hi) hle, h.numbers, h.distinct,
    h.fresh, h.shows⟩

/-- **The account of a chain.**  The root has an identity of its own, and shows nodes of the last
    layout and the blocks of its mentions. -/
theorem Recorded.account {before : Assembly} {ledger : Ledger} {tops : List Nat}
    {root : Block BlockId Draft} {book : Book}
    (h : Recorded config fuel source before ledger tops root book) :
    ∀ {slots spare pending},
      Account before.templates ⟨before.store, before.registry, ledger⟩ slots spare pending →
        ∃ owner slots' spare' pending' plain,
          Account owner book slots' (root.id :: (plain ++ spare')) (pending' ++ tops)
            ∧ Shows root.nodes plain (blocksOf slots' tops) := by
  induction h with
  | @root fuel source before read nodes ledger after tops hread hdrawn =>
      intro slots spare pending h
      obtain ⟨slots', plain, haccount, hshows, -, -⟩ := hdrawn.account h
      exact ⟨_, slots', spare, pending, plain, haccount.take, hshows⟩
  | @layout fuel source before read nodes layout ledger middle hidden tops root book hread hdrawn
      _ ih =>
      intro slots spare pending h
      obtain ⟨slots', plain, haccount, -, -, -⟩ := hdrawn.account h
      have hlt := (readStatements_draws (counts_composeWith config fuel) hread).1
      exact ih (haccount.of_le (Nat.le_of_lt hlt))

/-- Before a chain is read, nothing is to be accounted for. -/
theorem account_nothing : Account 0 {} (fun _ => ⟨0, [], []⟩) [] [] where
  settled := Registry.settled_empty 0
  names :=
    { owners := fun _ _ _ hj => nomatch hj
      unmentioned := fun _ _ hi => nomatch hi
      current := fun h => nomatch h
      recorded := fun _ hi => nomatch hi
      same := fun _ _ hi => nomatch hi }
  owners := fun _ hi => nomatch hi
  numbers := ⟨List.nodup_nil, fun _ hi => nomatch hi⟩
  distinct := List.nodup_nil
  fresh := fun _ hid => nomatch hid
  shows := fun _ hi => nomatch hi

end Stencil.Placement
