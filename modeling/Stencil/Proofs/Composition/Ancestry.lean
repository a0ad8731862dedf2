import Mathlib.Data.List.Chain
import Mathlib.Data.List.Nodup
import Mathlib.Data.List.Perm.Subperm
import Mathlib.Data.Set.Finite.List
import Stencil.Proofs.Composition.Twins
import Stencil.Proofs.Grammar.Termination
import Stencil.Proofs.OrderedMap

/-! # Ancestry — templates that lead to one another

    Composing a template asks for the composition of others: those it includes,
    while it is read, and its layout afterwards.  Either way the other one is
    found under a path in normal form that is on none of the paths that lead
    there, and it inherits them all (`Spawns`).

    So along a chain of templates the paths are distinct (`Spawns.chain`), and
    with a table of templates what is left of it gets smaller from one to the
    next (`Spawns.remaining_lt`).  Chains are bounded, and the fuel of composing
    is never used up (`composition_wellFounded`). -/

namespace Stencil

variable {config : Config} {source child : Source}

/-! ## What a template asks for -/

/-- Composing a source asks for another one: however others are composed, some answer for that one
    would have changed the outcome. -/
def Asks (config : Config) (source child : Source) : Prop :=
  ∃ compose, DependsOn (fun compose => composeStep config compose source) compose child

theorem Asks.spawns (h : Asks config source child) : Spawns config source child := by
  obtain ⟨compose, hdepends⟩ := h
  exact hdepends.of_congr fun other hagree => composeStep_congr hagree

/-- The path of a template, in normal form. -/
def Source.ownPath (source : Source) : Option String := source.filename.map Path.normalizeString

theorem Source.path_eq (source : Source) : source.path = source.ownPath.toList ++ source.lineage :=
  rfl

/-- The template at a path, asked for by another one. -/
def Source.childAt (source : Source) (loader : Loader) (path : String) : Source where
  text := match loader.load path with
    | .ok text => text
    | .error _ => ""
  filename := some path
  lineage := source.path

/-- A template that is asked for adds a path that was not there. -/
theorem Spawns.path_eq (h : Spawns config source child) :
    ∃ path, child = source.childAt config.activeLoader path ∧ child.ownPath = some path
      ∧ child.path = path :: source.path ∧ path ∉ source.path
      ∧ Path.normalizeString path = path ∧ ∃ text, config.activeLoader.load path = .ok text := by
  obtain ⟨path, hfilename, hnormal, hfresh, hload⟩ := h.loaded
  obtain ⟨text, filename, lineage⟩ := child
  obtain rfl : filename = some path := hfilename
  obtain rfl : lineage = source.path := h.lineage
  have hown : ({ text, filename := some path, lineage := source.path } : Source).ownPath
      = some path := by
    rw [Source.ownPath, Option.map_some, hnormal]
  refine ⟨path, ?_, hown, ?_, hfresh, hnormal, text, hload⟩
  · rw [Source.childAt, hload]
  · rw [Source.path_eq, hown]
    rfl

/-- The templates at some paths, each asked for by the one before. -/
def Source.descend (source : Source) (loader : Loader) : List String → List Source
  | [] => []
  | path :: paths =>
      source.childAt loader path :: (source.childAt loader path).descend loader paths

/-- **Along a chain the paths add up**, and none comes twice. -/
theorem Spawns.chain {others : List Source} (h : (source :: others).IsChain (Spawns config))
    (hnodup : source.path.Nodup) :
    ∃ paths : List String, others = source.descend config.activeLoader paths
      ∧ others.map Source.ownPath = paths.map some
      ∧ (others.getLastD source).path = paths.reverse ++ source.path
      ∧ (paths.reverse ++ source.path).Nodup
      ∧ ∀ path ∈ paths, Path.normalizeString path = path
        ∧ ∃ text, config.activeLoader.load path = .ok text := by
  induction others generalizing source with
  | nil => exact ⟨[], rfl, rfl, rfl, hnodup, nofun⟩
  | cons child others ih =>
      obtain ⟨hspawns, hrest⟩ := List.isChain_cons_cons.mp h
      obtain ⟨path, hchild, hown, hpath, hfresh, hnormal, hload⟩ := hspawns.path_eq
      have hnodup' : child.path.Nodup := by
        rw [hpath]
        exact List.nodup_cons.mpr ⟨hfresh, hnodup⟩
      obtain ⟨paths, hothers, hmap, hlast, hdistinct, hloaded⟩ := ih hrest hnodup'
      rw [hpath] at hlast hdistinct
      refine ⟨path :: paths, ?_, ?_, ?_, ?_, List.forall_mem_cons.mpr ⟨⟨hnormal, hload⟩, hloaded⟩⟩
      · rw [Source.descend, ← hchild, ← hothers]
      · rw [List.map_cons, hown, hmap, List.map_cons]
      · rw [List.getLastD_cons, hlast]
        simp
      · simpa using hdistinct

/-! ## Fuel -/

/-- A joined action fails when the first one does, or the one that goes on. -/
theorem bind_eq_error {σ α β : Type} {action : EStateM Fault σ α} {next : α → EStateM Fault σ β}
    {state after : σ} {fault : Fault} (h : (action >>= next) state = .error fault after) :
    action state = .error fault after
      ∨ ∃ first middle, action state = .ok first middle
        ∧ next first middle = .error fault after := by
  replace h : EStateM.bind action next state = .error fault after := h
  unfold EStateM.bind at h
  cases hfirst : action state with
  | ok first middle =>
      rw [hfirst] at h
      exact .inr ⟨first, middle, rfl, h⟩
  | error fault' middle =>
      rw [hfirst] at h
      cases h
      exact .inl rfl

section Fuel

variable {compose : Source → Assemble Composed} {assembly after : Assembly} {fault : Fault}

/-- The statements of a template are read to an end, unless composing another one fails. -/
theorem readStatements_ne_exhausted
    (h : ∀ child assembly after fault, compose child assembly = .error fault after →
      fault.cause ≠ .exhausted)
    (hrun : readStatements config compose source assembly = .error fault after) :
    fault.cause ≠ .exhausted := by
  have hends := Parse.document_ends (source.template config compose assembly.templates)
    (Lexer.ofSource source.text config.colons) (source.begin config assembly) .start
    (Lexer.stands_ofSource source.text config.colons)
  cases hread : Parse.document (source.template config compose assembly.templates)
      (source.begin config assembly) with
  | ok nodes read => cases (readStatements_eq_ok.mpr ⟨read, hread, rfl, rfl⟩).symm.trans hrun
  | error found read =>
      cases (readStatements_of_fault hread).symm.trans hrun
      rw [hread] at hends
      intro hexhausted
      cases hends with
      | text cause => rw [hexhausted] at cause; cases cause
      | unnamed _ _ cause =>
          rw [hexhausted] at cause
          rcases cause with cause | cause <;> cases cause
      | naming _ cause => rw [hexhausted] at cause; cases cause
      | composing _ run => exact h _ _ _ _ run hexhausted
      | exhausted short => exact short trivial

/-- Moving mixins into a layout always succeeds. -/
theorem hoistMixins_eq_ok (layout : Layout) (root : Block BlockId Draft) (assembly : Assembly) :
    ∃ filled after, hoistMixins layout root assembly = .ok filled after := by
  have hget : (get : Assemble Assembly).run assembly = .ok assembly assembly := rfl
  show ∃ filled after, (hoistMixins layout root).run assembly = .ok filled after
  rw [hoistMixins, EStateM.run_bind, hget]
  dsimp only
  cases homelessMixins assembly.mixins (Node.ofBlock (assembly.store.resolveBlock root)) with
  | nil => exact ⟨_, _, rfl⟩
  | cons first others => exact ⟨_, _, rfl⟩

/-- A template is composed to an end, unless composing another one fails. -/
theorem composeStep_ne_exhausted
    (h : ∀ child assembly after fault, compose child assembly = .error fault after →
      fault.cause ≠ .exhausted)
    (hrun : composeStep config compose source assembly = .error fault after) :
    fault.cause ≠ .exhausted := by
  rcases bind_eq_error hrun with hread | ⟨⟨nodes, layout?⟩, read, -, hrest⟩
  · exact readStatements_ne_exhausted h hread
  · cases layout? with
    | none => exact nomatch hrest
    | some layout =>
        rcases bind_eq_error hrest with hlayout | ⟨root, middle, -, hpure⟩
        · -- only composing the layout can fail
          replace hlayout : (compose (layout.source source) >>= fun composed =>
              modify (fun assembly => { assembly with mixins := read.mixins }) >>= fun _ =>
                hoistMixins layout composed.root) { read with mixins := .empty }
              = .error fault after := hlayout
          rcases bind_eq_error hlayout with hcompose | ⟨composed, made, -, hhoist⟩
          · exact h _ _ _ _ hcompose
          · obtain ⟨_, _, hok⟩ :=
              hoistMixins_eq_ok layout composed.root { made with mixins := read.mixins }
            cases hok.symm.trans hhoist
        · cases hpure

end Fuel

/-! ## Tables of templates -/

/-- A configuration with a table of templates. -/
def Config.withTemplates (config : Config) (templates : OrderedMap String String) : Config :=
  { config with loader := some (.table templates) }

section Table

variable {settings : Config} {templates : OrderedMap String String}

theorem mem_keys_of_load {path text : String} (hnormal : Path.normalizeString path = path)
    (h : (settings.withTemplates templates).activeLoader.load path = .ok text) :
    path ∈ templates.keys := by
  refine OrderedMap.mem_keys ?_
  cases hget : templates.get? path with
  | some text => rfl
  | none =>
      have hload : (settings.withTemplates templates).activeLoader.load path
          = .error (.notFound path) := by
        show Loader.load (.table templates) path = _
        -- its equations would also go through the readers of files
        delta Loader.load
        rw [hnormal]
        simp only [hget]
      rw [hload] at h
      cases h

/-- The paths of a table that may still be loaded. -/
def remaining (templates : OrderedMap String String) (source : Source) : List String :=
  templates.keys.filter (· ∉ source.path)

/-- **A template that is asked for leaves fewer paths to be loaded.** -/
theorem Spawns.remaining_lt (h : Spawns (settings.withTemplates templates) source child) :
    (remaining templates child).length < (remaining templates source).length := by
  obtain ⟨path, -, -, hpath, hfresh, hnormal, text, hload⟩ := h.path_eq
  have hmem : path ∈ remaining templates source :=
    List.mem_filter.mpr ⟨mem_keys_of_load hnormal hload, by simpa using hfresh⟩
  have hremaining : remaining templates child
      = (remaining templates source).filter (· ≠ path) := by
    rw [remaining, remaining, List.filter_filter, hpath]
    exact List.filter_congr fun key _ => by simp
  rw [hremaining]
  exact List.length_filter_lt_length_iff_exists.mpr ⟨path, hmem, by simp⟩

/-- With more fuel than paths are left, composing depends no more on how much there is. -/
theorem composeWith_eq_of_remaining_lt (fuel : Nat) : ∀ {source : Source} {more : Nat},
    (remaining templates source).length < fuel → fuel ≤ more →
      composeWith (settings.withTemplates templates) fuel source
        = composeWith (settings.withTemplates templates) more source := by
  induction fuel with
  | zero => exact fun hlt => absurd hlt (Nat.not_lt_zero _)
  | succ fuel ih =>
      intro source more hlt hle
      obtain ⟨more, rfl⟩ := Nat.exists_eq_succ_of_ne_zero (by omega : more ≠ 0)
      refine composeStep_congr fun child hspawns => ih ?_ (Nat.le_of_succ_le_succ hle)
      have hless := hspawns.remaining_lt
      omega

/-- **Composing does not run out of fuel** when it has more than paths are left. -/
theorem composeWith_ne_exhausted (fuel : Nat) : ∀ {source : Source} {assembly after : Assembly}
    {fault : Fault}, (remaining templates source).length < fuel →
      composeWith (settings.withTemplates templates) fuel source assembly = .error fault after →
      fault.cause ≠ .exhausted := by
  induction fuel with
  | zero => exact fun hlt => absurd hlt (Nat.not_lt_zero _)
  | succ fuel ih =>
      classical
      intro source assembly after fault hlt hrun
      -- what the template does not ask for may be taken to be refused
      let limited : Source → Assemble Composed := fun child =>
        if Spawns (settings.withTemplates templates) source child then
          composeWith (settings.withTemplates templates) fuel child
        else throw ⟨.unnamedExtends, {}⟩
      have hlimited : composeStep (settings.withTemplates templates)
          (composeWith (settings.withTemplates templates) fuel) source
            = composeStep (settings.withTemplates templates) limited source :=
        composeStep_congr fun child hspawns => (if_pos hspawns).symm
      replace hrun : composeStep (settings.withTemplates templates) limited source assembly
          = .error fault after := hlimited ▸ hrun
      refine composeStep_ne_exhausted (fun child before later found hfound => ?_) hrun
      by_cases hspawns : Spawns (settings.withTemplates templates) source child
      · rw [show limited child = _ from if_pos hspawns] at hfound
        have hless := hspawns.remaining_lt
        exact ih (by omega) hfound
      · rw [show limited child = _ from if_neg hspawns] at hfound
        cases hfound
        exact nofun

/-! ## Chains of a table -/

/-- The paths that are left are at most those of the table. -/
theorem length_remaining_le (templates : OrderedMap String String) (source : Source) :
    (remaining templates source).length ≤ templates.size := by
  refine (List.length_filter_le ..).trans (Nat.le_of_eq ?_)
  rw [OrderedMap.keys, List.length_map, OrderedMap.size]

variable {entry : Source} {others : List Source}

/-- A template that no other one led to. -/
theorem Source.path_eq_of_entry (h : entry.lineage = []) : entry.path = entry.ownPath.toList := by
  rw [Source.path_eq, h, List.append_nil]

/-- **A chain has no more templates than the table**, apart from the one it starts with, and no two
    have one path. -/
theorem Spawns.chain_of_table (hentry : entry.lineage = [])
    (h : (entry :: others).IsChain (Spawns (settings.withTemplates templates))) :
    ∃ paths : List String,
      others = entry.descend (settings.withTemplates templates).activeLoader paths
      ∧ (entry :: others).map Source.ownPath = entry.ownPath :: paths.map some
      ∧ (others.getLastD entry).path = paths.reverse ++ entry.ownPath.toList
      ∧ (paths.reverse ++ entry.ownPath.toList).Nodup ∧ ∀ path ∈ paths, path ∈ templates.keys := by
  have hpath := entry.path_eq_of_entry hentry
  obtain ⟨paths, hothers, hmap, hlast, hdistinct, hloaded⟩ :=
    Spawns.chain h (by rw [hpath]; exact Option.toList_nodup _)
  rw [hpath] at hlast hdistinct
  refine ⟨paths, hothers, by rw [List.map_cons, hmap], hlast, hdistinct, fun path hmem => ?_⟩
  obtain ⟨hnormal, text, hload⟩ := hloaded path hmem
  exact mem_keys_of_load hnormal hload

theorem nodup_ownPaths {paths : List String} (h : (paths.reverse ++ entry.ownPath.toList).Nodup) :
    (entry.ownPath :: paths.map some).Nodup := by
  obtain ⟨hpaths, -, hdisjoint⟩ := List.nodup_append.mp h
  refine List.nodup_cons.mpr ⟨fun hmem => ?_, ?_⟩
  · obtain ⟨path, hpath, hown⟩ := List.mem_map.mp hmem
    exact hdisjoint path (List.mem_reverse.mpr hpath) path (by simp [← hown]) rfl
  · exact (List.nodup_reverse.mp hpaths).map (Option.some_injective _)

theorem length_le_of_keys {paths : List String}
    (h : (paths.reverse ++ entry.ownPath.toList).Nodup)
    (hkeys : ∀ path ∈ paths, path ∈ templates.keys) : paths.length ≤ templates.size := by
  have hpaths : paths.Nodup := List.nodup_reverse.mp (List.nodup_append.mp h).1
  refine (hpaths.subperm fun path => hkeys path).length_le.trans (Nat.le_of_eq ?_)
  rw [OrderedMap.keys, List.length_map, OrderedMap.size]

/-- Only finitely many chains start with a template. -/
theorem finite_chains (hentry : entry.lineage = []) :
    Set.Finite
      {others | (entry :: others).IsChain (Spawns (settings.withTemplates templates))} := by
  have hfinite : Set.Finite {paths : List {path // path ∈ templates.keys} |
      paths.length ≤ templates.size} := List.finite_length_le _ _
  refine (hfinite.image fun paths => entry.descend (settings.withTemplates templates).activeLoader
    (paths.map Subtype.val)).subset fun others h => ?_
  obtain ⟨paths, hothers, -, -, hdistinct, hkeys⟩ := Spawns.chain_of_table hentry h
  refine ⟨paths.attach.map fun path => ⟨path.1, hkeys _ path.2⟩, ?_, ?_⟩
  · simpa using length_le_of_keys hdistinct hkeys
  · simp [hothers]

end Table

/-! ## Paths that lead back -/

section Cycles

open Parse

variable {compose : Source → Assemble Composed} {owner : Nat} {progress after : Progress}
  {token : Token} {filename path : String}

/-- A path that leads back is refused by the check. -/
theorem checkCycle_of_mem (h : path ∈ source.path) (line : Int) (progress : Progress) :
    checkCycle (source.template config compose owner) path line progress
      = .error ⟨.cycle path, ⟨some line, source.filename⟩⟩ progress := by
  have hcontains : (source.template config compose owner).lineage.contains path = true := by
    simpa [Source.template] using h
  rw [checkCycle, if_pos hcontains]
  rfl

/-- A run goes on where the first reader leaves it. -/
theorem bind_eq_of_ok {σ α β : Type} {action : EStateM Fault σ α} {next : α → EStateM Fault σ β}
    {state after : σ} {result : α} (h : action state = .ok result after) :
    (action >>= next) state = next result after := by
  show EStateM.bind action next state = _
  rw [EStateM.bind, h]

theorem bind_eq_of_error {σ α β : Type} {action : EStateM Fault σ α} {next : α → EStateM Fault σ β}
    {state after : σ} {fault : Fault} (h : action state = .error fault after) :
    (action >>= next) state = .error fault after := by
  show EStateM.bind action next state = _
  rw [EStateM.bind, h]

/-- **A layout that leads back is refused** before it is loaded. -/
theorem extendsStatement_of_mem (hfilename : source.filename = some filename)
    (hnext : expect (source.template config compose owner) .extends progress = .ok token after)
    (hlayout : progress.layout = none)
    (h : resolvePath config.extension filename token.value ∈ source.path) :
    extendsStatement (source.template config compose owner) progress
      = .error ⟨.cycle (resolvePath config.extension filename token.value),
          ⟨some token.line, source.filename⟩⟩ after := by
  have hexpect : Twins (· = none) (expect (source.template config compose owner) .extends)
      (expect (source.template config compose owner) .extends) := twins_expect _
  have hafter : after.layout = none := (hexpect _ hlayout).2 _ _ hnext
  rw [extendsStatement, bind_eq_of_ok hnext]
  simp only [Source.template_filename, hfilename]
  have hget : (get : Parse Progress) after = .ok after after := rfl
  rw [bind_eq_of_ok hget, hafter, if_neg (by simp)]
  rw [← hfilename]
  exact bind_eq_of_error (checkCycle_of_mem h token.line after)

/-- **A template that leads back is not included**: it is refused before it is loaded. -/
theorem includeStatement_of_mem {statement : Parse Draft}
    (hfilename : source.filename = some filename)
    (hnext : expect (source.template config compose owner) .include progress = .ok token after)
    (htemplate : isTemplatePath config.extension
      (resolvePath config.extension filename token.value) = true)
    (h : resolvePath config.extension filename token.value ∈ source.path) :
    includeStatement (source.template config compose owner) statement progress
      = .error ⟨.cycle (resolvePath config.extension filename token.value),
          ⟨some token.line, source.filename⟩⟩ after := by
  rw [includeStatement, bind_eq_of_ok hnext]
  simp only [Source.template_filename, hfilename]
  refine (congrFun (if_pos htemplate) after).trans ?_
  rw [← hfilename]
  exact bind_eq_of_error (checkCycle_of_mem h token.line after)

/-- A template refuses to load a path again: an `extends` that is its first and an `include` that
    would lead there stop with a fault that tells the path, and with nothing told or loaded. -/
structure Refuses (config : Config) (source : Source) (path : String) : Prop where
  asLayout : ∀ compose owner progress token after filename, source.filename = some filename →
    expect (source.template config compose owner) .extends progress = .ok token after →
    progress.layout = none → resolvePath config.extension filename token.value = path →
    ∃ fault, extendsStatement (source.template config compose owner) progress = .error fault after
      ∧ fault.diagnostic = .template (.resolution (some path)) ("cyclic include/extends: " ++ path)
          ⟨some token.line, source.filename⟩
  asInclude : ∀ compose owner progress token after filename statement,
    source.filename = some filename →
    expect (source.template config compose owner) .include progress = .ok token after →
    isTemplatePath config.extension path = true →
    resolvePath config.extension filename token.value = path →
    ∃ fault, includeStatement (source.template config compose owner) statement progress
        = .error fault after
      ∧ fault.diagnostic = .template (.resolution (some path)) ("cyclic include/extends: " ++ path)
          ⟨some token.line, source.filename⟩

theorem refuses_of_mem (h : path ∈ source.path) : Refuses config source path where
  asLayout := by
    rintro compose owner progress token after filename hfilename hnext hlayout rfl
    exact ⟨_, extendsStatement_of_mem hfilename hnext hlayout h, rfl⟩
  asInclude := by
    rintro compose owner progress token after filename statement hfilename hnext htemplate rfl
    exact ⟨_, includeStatement_of_mem hfilename hnext htemplate h, rfl⟩

end Cycles

/-! ## Compositions -/

/-- The source that a composition starts with. -/
abbrev Source.entry (text : String) (filename : Option String) : Source := { text, filename }

/-- **Composition is well founded, and cycles are refused.**  With a table of templates, along every
    chain of templates that ask for one another the paths are distinct, so a chain has at most one
    template more than the table, and the last one refuses all the paths of the chain.  There are
    finitely many chains, and with more fuel than templates a composition comes to its end. -/
theorem composition_wellFounded (settings : Config) (templates : OrderedMap String String)
    (text : String) (filename : Option String) :
    (∀ others, (Source.entry text filename :: others).IsChain
          (Asks (settings.withTemplates templates)) →
        ((Source.entry text filename :: others).map Source.ownPath).Nodup
        ∧ (Source.entry text filename :: others).length ≤ templates.size + 1
        ∧ ∀ path, some path ∈ (Source.entry text filename :: others).map Source.ownPath →
            Refuses (settings.withTemplates templates) (others.getLastD (.entry text filename))
              path)
      ∧ Set.Finite {others | (Source.entry text filename :: others).IsChain
          (Asks (settings.withTemplates templates))}
      ∧ (∀ fuel, templates.size < fuel →
          composeWith (settings.withTemplates templates) fuel (.entry text filename)
            = compose (settings.withTemplates templates) text filename)
      ∧ ∀ assembly fault after,
          compose (settings.withTemplates templates) text filename assembly = .error fault after →
          fault.cause ≠ .exhausted := by
  have hchain : ∀ {others}, (Source.entry text filename :: others).IsChain
      (Asks (settings.withTemplates templates)) → (Source.entry text filename :: others).IsChain
      (Spawns (settings.withTemplates templates)) := fun h => h.imp fun _ _ => Asks.spawns
  refine ⟨fun others h => ?_, ?_, fun fuel hfuel => ?_, fun assembly fault after hrun => ?_⟩
  · obtain ⟨paths, -, hmap, hlast, hdistinct, hkeys⟩ := Spawns.chain_of_table rfl (hchain h)
    have hlength := congrArg List.length hmap
    have hpaths := length_le_of_keys hdistinct hkeys
    simp only [List.length_map, List.length_cons] at hlength
    rw [hmap]
    refine ⟨nodup_ownPaths hdistinct, by rw [List.length_cons]; omega, fun path hmem => ?_⟩
    refine refuses_of_mem ?_
    rw [hlast]
    simpa [eq_comm, or_comm] using hmem
  · exact (finite_chains rfl).subset fun others => hchain
  · -- the bound that composing starts with is more than the number of templates, too
    have hlt := Nat.lt_of_le_of_lt (length_remaining_le templates (.entry text filename)) hfuel
    have hlt' := Nat.lt_of_le_of_lt (length_remaining_le templates (.entry text filename))
      (by omega : templates.size < templates.size + 2)
    rcases Nat.le_total fuel (templates.size + 2) with hle | hle
    · exact composeWith_eq_of_remaining_lt fuel hlt hle
    · exact (composeWith_eq_of_remaining_lt _ hlt' hle).symm
  · have hle := length_remaining_le templates (.entry text filename)
    have hlt : (remaining templates (.entry text filename)).length < templates.size + 2 := by omega
    exact composeWith_ne_exhausted _ hlt hrun

/-! ### Two templates that name each other -/

deriving instance DecidableEq for Source

theorem asks_of_ne {compose : Source → Assemble Composed} {answer : Assemble Composed}
    (h : composeStep config (Function.update compose child answer) source
      ≠ composeStep config compose source) : Asks config source child :=
  ⟨compose, dependsOn_of_ne h⟩

/-- The cause for which a run fails. -/
def causeOf? : EStateM.Result Fault Assembly Composed → Option Cause
  | .ok _ _ => none
  | .error fault _ => some fault.cause

/-- A page that includes a part, which takes the page for its layout. -/
def crossed : OrderedMap String String :=
  .ofList [("views/page.jade", "include ../views/./part"), ("views/part.jade", "extends page")]

/-- The part, as the page asks for it. -/
def crossedPart : Source where
  text := "extends page"
  filename := some "views/part.jade"
  lineage := ["views/page.jade"]

theorem composition_wellFounded_crossed :
    [.entry "include ../views/./part" "views/page.jade", crossedPart].IsChain
        (Asks (({} : Config).withTemplates crossed))
      ∧ Refuses (({} : Config).withTemplates crossed) crossedPart "views/page.jade" := by
  have hasks : Asks (({} : Config).withTemplates crossed)
      (.entry "include ../views/./part" "views/page.jade") crossedPart := by
    let refused : Source → Assemble Composed := fun _ => throw ⟨.exhausted, {}⟩
    have hcause : causeOf? (composeStep (({} : Config).withTemplates crossed)
          (Function.update refused crossedPart (throw ⟨.unnamedExtends, {}⟩))
          (.entry "include ../views/./part" "views/page.jade") {})
        ≠ causeOf? (composeStep (({} : Config).withTemplates crossed) refused
          (.entry "include ../views/./part" "views/page.jade") {}) := by
      decide +kernel
    exact asks_of_ne fun hsame => hcause (congrArg causeOf? (congrFun hsame {}))
  have hchain := List.isChain_pair.mpr hasks
  obtain ⟨-, -, hrefuses⟩ := (composition_wellFounded {} crossed "include ../views/./part"
    (some "views/page.jade")).1 [crossedPart] hchain
  refine ⟨hchain, hrefuses _ ?_⟩
  decide +kernel

/-- The composition of the two is refused, and tells the path that leads back. -/
example : causeOf? (compose (({} : Config).withTemplates crossed) "include ../views/./part"
    (some "views/page.jade") {}) = some (.cycle "views/page.jade") := by decide +kernel

end Stencil
