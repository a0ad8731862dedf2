import Stencil.Proofs.Grammar.Ensures

/-! # Inclusion — what a successful `include` has done, step by step

    An `include` statement takes its path, and gives either a literal with the
    text there (`includeLiteral_eq_ok`) or the tree that the text is composed to
    (`includeTemplate_eq_ok`).  A tree takes the content below the statement, if
    there is any, at the include point that it has then (`Attaches`).

    Whatever is to be shown of an include can be read off from these steps. -/

namespace Stencil

open Parse

variable {template : Template} {statement : Parse Draft} {progress after : Progress}
  {node : Draft} {filename path : String} {line : Int}

/-! ## Steps -/

/-- An action on what templates share, run as a reader. -/
theorem assemble_eq_ok {α : Type} {action : Assemble α} {result : α}
    (h : assemble action progress = .ok result after) :
    ∃ assembly, action progress.assembly = .ok result assembly
      ∧ after = { progress with assembly } := by
  unfold assemble at h
  cases hact : action progress.assembly with
  | ok value assembly =>
      rw [hact] at h
      cases h
      exact ⟨assembly, rfl, rfl⟩
  | error fault assembly =>
      rw [hact] at h
      cases h

/-- No template is composed below itself. -/
theorem checkCycle_eq_ok (hrun : checkCycle template path line progress = .ok () after) :
    path ∉ template.lineage ∧ after = progress := by
  unfold checkCycle at hrun
  split at hrun
  · exact nomatch hrun
  · next hnew =>
      cases hrun
      exact ⟨fun hmem => hnew (List.elem_eq_true_of_mem hmem), rfl⟩

theorem load_eq_ok {text : String} (hrun : load template path line progress = .ok text after) :
    template.config.activeLoader.load path = .ok text ∧ after = progress := by
  unfold load at hrun
  cases hload : template.config.activeLoader.load path with
  | ok found =>
      rw [hload] at hrun
      cases hrun
      exact ⟨rfl, rfl⟩
  | error fault =>
      rw [hload] at hrun
      exact nomatch hrun

/-! ## Includes -/

/-- The content below an include, if there is any, has been read and put at the include point of a
    tree. -/
inductive Parse.Attaches (template : Template) (statement : Parse Draft)
    (root : Block BlockId Draft) (included : Progress) : Progress → Prop where
  | bare {after : Progress} : isAt template .indent included = .ok false after →
      Attaches template statement root included after
  | content {looked later : Progress} {content : Block BlockId Draft} {pushed : Assembly} :
      isAt template .indent included = .ok true looked →
      indentedBlock template statement looked = .ok content later →
      pushInto (Node.includePoint (looked.assembly.store.resolveBlock root)) (.ofBlock content)
        later.assembly = .ok () pushed →
      Attaches template statement root included { later with assembly := pushed }

/-- A text that is no template's is a literal, without content below it. -/
theorem includeLiteral_eq_ok
    (hrun : includeLiteral template filename path line progress = .ok node after) :
    ∃ text told looked,
      tell compositionChannel (filename ++ " includes " ++ path ++ " as literal text") progress
          = .ok () told
        ∧ template.config.activeLoader.load path = .ok text
        ∧ isAt template .indent told = .ok false looked
        ∧ (newNode line (.literal text) : Parse Draft) looked = .ok node after := by
  obtain ⟨_, told, htell, htold⟩ := bind_eq_ok hrun
  obtain ⟨text, _, hload, hloaded⟩ := bind_eq_ok htold
  obtain ⟨htext, rfl⟩ := load_eq_ok hload
  obtain ⟨token, looked, hlook, hrest⟩ := bind_eq_ok hloaded
  split at hrest
  · obtain ⟨_, _, hfail, -⟩ := bind_eq_ok hrest
    exact nomatch hfail
  · next hindent =>
      refine ⟨text, _, looked, htell, htext, ?_, hrest⟩
      show EStateM.bind (peek template) _ _ = _
      rw [EStateM.bind, hlook]
      exact congrArg (EStateM.Result.ok · looked) (Bool.eq_false_iff.mpr hindent)

/-- The text of a template is composed to a tree, which is named and takes the content below the
    statement. -/
theorem includeTemplate_eq_ok
    (hrun : includeTemplate template statement filename path line progress = .ok node after) :
    ∃ text told composed read root named, path ∉ template.lineage
      ∧ tell compositionChannel (filename ++ " includes " ++ path) progress = .ok () told
      ∧ template.config.activeLoader.load path = .ok text
      ∧ composeInclude template { text, filename := some path, lineage := template.lineage }
        told.assembly = .ok composed read
      ∧ nameRoot path composed.root read = .ok root named
      ∧ node = .ofBlock root
      ∧ Attaches template statement root { told with assembly := named } after := by
  obtain ⟨_, _, hcheck, hchecked⟩ := bind_eq_ok hrun
  obtain ⟨hnew, rfl⟩ := checkCycle_eq_ok hcheck
  obtain ⟨_, told, htell, htold⟩ := bind_eq_ok hchecked
  obtain ⟨text, _, hload, hrest⟩ := bind_eq_ok htold
  obtain ⟨htext, rfl⟩ := load_eq_ok hload
  obtain ⟨composed, _, hinclude, hcomposed⟩ := bind_eq_ok hrest
  obtain ⟨read, hread, rfl⟩ := assemble_eq_ok hinclude
  obtain ⟨root, _, hroot, hnamed⟩ := bind_eq_ok hcomposed
  obtain ⟨named, hname, rfl⟩ := assemble_eq_ok hroot
  obtain ⟨indented, looked, hlook, hcontent⟩ := bind_eq_ok hnamed
  refine ⟨text, _, composed, read, root, named, hnew, htell, htext, hread, hname, ?_⟩
  cases indented with
  | false =>
      cases hcontent
      exact ⟨rfl, .bare hlook⟩
  | true =>
      obtain ⟨target, _, htarget, hrest⟩ := bind_eq_ok hcontent
      obtain ⟨_, hfound, rfl⟩ := assemble_eq_ok htarget
      cases hfound
      obtain ⟨content, later, hblock, hrest⟩ := bind_eq_ok hrest
      obtain ⟨_, _, hpush, hrest⟩ := bind_eq_ok hrest
      obtain ⟨pushed, hpushed, rfl⟩ := assemble_eq_ok hpush
      cases hrest
      exact ⟨rfl, .content hlook hblock hpushed⟩

/-- A statement in a template with a name includes what is at the path that its target leads to. -/
theorem includeStatement_eq_ok
    (hrun : includeStatement template statement progress = .ok node after) :
    ∃ token taken filename, expect template .include progress = .ok token taken
      ∧ template.filename = some filename
      ∧ let path := resolvePath template.config.extension filename token.value
        isTemplatePath template.config.extension path = true
            ∧ includeTemplate template statement filename path token.line taken = .ok node after
          ∨ isTemplatePath template.config.extension path = false
            ∧ includeLiteral template filename path token.line taken = .ok node after := by
  obtain ⟨token, taken, hexpect, hrest⟩ := bind_eq_ok hrun
  cases hfilename : template.filename with
  | none =>
      simp only [hfilename] at hrest
      exact nomatch hrest
  | some filename =>
      refine ⟨token, taken, filename, hexpect, rfl, ?_⟩
      simp only [hfilename] at hrest
      split at hrest
      · next hpath => exact .inl ⟨hpath, hrest⟩
      · next hpath => exact .inr ⟨Bool.eq_false_iff.mpr hpath, hrest⟩

end Stencil
