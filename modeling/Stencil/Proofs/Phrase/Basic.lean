import Stencil.Proofs.Composition.Lineless

/-! # Phrases — what a template says, apart from where it says it

    A phrase is a statement with everything inside it.  It keeps neither line
    numbers nor line breaks, and it is known before anything is composed: names of
    blocks, mixins and other templates stand in it as they are written.

    What a phrase makes is given by `evaluate`, which reads no token.  It begins
    its construct, evaluates the parts in order, and finishes the construct with
    the nodes that these gave.  It works on a `Site`, the layout that is noted and
    what the templates share, without line numbers and without a log. -/

namespace Stencil

/-! ## Phrases -/

/-- What an element is for. -/
inductive Role where
  /-- A tag; `interpolated` when its name is an expression. -/
  | tag (interpolated : Bool)
  /-- A mixin call. -/
  | call (args : Option String)
deriving DecidableEq

/-- What a statement is apart from the statements inside it. -/
inductive Construct where
  /-- A node with its inline code and its bodies, which leaves alone what templates share. -/
  | node (kind : Kind Empty)
  /-- A body of statements or of raw lines, or a marker. -/
  | body (props : BlockProps)
  /-- A raw body inside another one, which takes its lines. -/
  | rawBody
  /-- An element with the content of its line and its body. -/
  | element (element : Element) (role : Role)
  /-- The definition of a mixin. -/
  | mixin (name : String) (args : Option String)
  /-- A named block. -/
  | named (name : String) (mode : BlockMode)
  | «include» (target : String)
  | «extends» (target : String)
deriving DecidableEq

/-- A statement with everything inside it. -/
inductive Phrase where
  | make (construct : Construct) (parts : List Phrase)

namespace Phrase

mutual

/-- Whether two phrases are the same. -/
def decideEq : (phrase other : Phrase) → Decidable (phrase = other)
  | make construct parts, make construct' parts' =>
      have := decideEqAll parts parts'
      decidable_of_iff (construct = construct' ∧ parts = parts') (by rw [make.injEq])

/-- Whether two lists of phrases are the same. -/
def decideEqAll : (phrases others : List Phrase) → Decidable (phrases = others)
  | [], [] => .isTrue rfl
  | phrase :: phrases, other :: others =>
      have := decideEq phrase other
      have := decideEqAll phrases others
      decidable_of_iff (phrase = other ∧ phrases = others) (by rw [List.cons.injEq])
  | [], _ :: _ => .isFalse fun h => by cases h
  | _ :: _, [] => .isFalse fun h => by cases h

end

instance : DecidableEq Phrase := decideEq

end Phrase

/-! ## Without line numbers and log -/

/-- What the templates share, without line numbers and without a log. -/
def Assembly.plain (assembly : Assembly) : Assembly where
  store := assembly.store.lineless
  registry := assembly.registry.lineless
  mixins := linelessMixins assembly.mixins
  templates := assembly.templates
  log := []

/-- A composed template without line numbers. -/
def Composed.lineless (composed : Composed) : Composed :=
  { composed with root := composed.root.lineless }

/-- What evaluating a phrase may change. -/
structure Site where
  /-- The layout that the template extends. -/
  layout : Option Layout := none
  assembly : Assembly

/-- An evaluation: a result and the site afterwards, unless it fails. -/
abbrev Evaluate := StateT Site Option

namespace Evaluate

variable {α β : Type}

theorem bind_apply (evaluate : Evaluate α) (next : α → Evaluate β) (site : Site) :
    (evaluate >>= next) site
      = (evaluate site).bind fun outcome => next outcome.1 outcome.2 :=
  rfl

/-- Does something with what the templates share, without line numbers and log; `erase` takes the
    line numbers from the result. -/
def plainly (erase : α → β) (action : Assemble α) : Evaluate β := fun site =>
  match action site.assembly with
  | .ok result after => some (erase result, { site with assembly := after.plain })
  | .error _ _ => none

section Plainly

variable {erase : α → β} {action : Assemble α} {site : Site} {after : Assembly}

theorem plainly_of_ok {result : α} (h : action site.assembly = .ok result after) :
    plainly erase action site = some (erase result, { site with assembly := after.plain }) := by
  rw [plainly, h]

theorem plainly_of_error {fault : Fault} (h : action site.assembly = .error fault after) :
    plainly erase action site = none := by
  rw [plainly, h]

end Plainly

/-- A new identity. -/
def fresh : Evaluate BlockId := fun site =>
  let assembly := site.assembly
  some (assembly.store.next,
    { site with assembly := { assembly with store := assembly.store.taken } })

/-- A new block. -/
def newBlock (nodes : List Draft) (props : BlockProps) : Evaluate (Block BlockId Draft) := do
  return { id := ← fresh, line := 0, props, nodes }

/-- A new node that is no block. -/
def newNode (kind : Kind BlockId) (children : List Draft) : Evaluate Draft := do
  return .make (← fresh) 0 kind children

/-- Refuses a path that leads back to the template or to one it was reached from. -/
def uncycled (template : Template) (path : String) : Evaluate PUnit :=
  if template.lineage.contains path then failure else pure ()

/-- What is loaded for a path. -/
def loaded (template : Template) (path : String) : Evaluate String := fun site =>
  match template.config.activeLoader.load path with
  | .ok text => some (text, site)
  | .error _ => none

end Evaluate

/-! ## Constructs -/

/-- What a construct holds while its parts are evaluated. -/
inductive Begun where
  | nothing
  /-- The body of an element, before there is anything in it. -/
  | element (body : Block BlockId Draft)
  /-- An included tree, and the block that takes the content below the statement. -/
  | included (root target : Block BlockId Draft)
  /-- The text of an included file that is no template. -/
  | literal (text : String)

/-- The layout that a template extends, if it can be extended there. -/
def Template.layout? (template : Template) (target : String) : Option Layout := do
  let filename ← template.filename
  let path := Parse.resolvePath template.config.extension filename target
  if template.lineage.contains path then none
  else
    match template.config.activeLoader.load path with
    | .ok text => some { extendedBy := filename, path, text }
    | .error _ => none

namespace Construct

open Evaluate

/-- Composes an included template. -/
def includedRoot (template : Template) (path : String) : Evaluate (Block BlockId Draft) := do
  uncycled template path
  let text ← loaded template path
  let composed ← plainly Composed.lineless <| Parse.composeInclude template
    { text, filename := some path, lineage := template.lineage }
  plainly Block.lineless (Parse.nameRoot path composed.root)

/-- Begins the inclusion of a template; the block for the content below is found at once. -/
def beginTemplate (template : Template) (path : String) : Evaluate Begun := do
  let root ← includedRoot template path
  let target ← plainly Block.lineless (Parse.includeTarget root)
  return .included root target

/-- Begins an inclusion. -/
def beginInclude (template : Template) (target : String) : Evaluate Begun :=
  match template.filename with
  | none => failure
  | some filename =>
      let path := Parse.resolvePath template.config.extension filename target
      if Parse.isTemplatePath template.config.extension path then beginTemplate template path
      else return .literal (← loaded template path)

/-- Notes a layout. -/
def beginExtends (template : Template) (target : String) : Evaluate Begun := fun site =>
  if site.layout.isSome then none
  else (template.layout? target).map fun layout => (.nothing, { site with layout := some layout })

/-- What is done before the parts of a construct are evaluated. -/
def begin (template : Template) : Construct → Evaluate Begun
  | element _ _ => return .element (← newBlock [] {})
  | «include» target => beginInclude template target
  | «extends» target => beginExtends template target
  | _ => return .nothing

/-- Puts a part into an element: a text or code on its line, or a body. -/
def place (opened : Parse.OpenElement) (node : Draft) : Parse.OpenElement :=
  match node.block? with
  | some own => Parse.joinBody opened own
  | none =>
      if node.isCode then { opened with code := some node }
      else { opened with body := { opened.body with nodes := opened.body.nodes ++ [node] } }

/-- The node of an element with its parts. -/
def closeElement (role : Role) (opened : Parse.OpenElement) : Evaluate Draft :=
  match role with
  | .tag interpolated =>
      newNode (.tag opened.element interpolated) (opened.code.toList ++ [.ofBlock opened.body])
  | .call args =>
      newNode (.mixin opened.element args true)
        (opened.code.toList ++ if opened.body.nodes.isEmpty then [] else [.ofBlock opened.body])

/-- Enters a mixin definition into the table. -/
def enterMixin (name : String) (definition : Draft) : Evaluate Unit := fun site =>
  let assembly := site.assembly
  some ((), { site with
    assembly := { assembly with mixins := assembly.mixins.insert name definition } })

/-- Defines a named block with the body that was evaluated. -/
def defineNamed (template : Template) (name : String) (mode : BlockMode)
    (content : Block BlockId Draft) : Evaluate (Block BlockId Draft) :=
  let props := { content.props with mode, filename := template.filename }
  plainly Block.lineless (Parse.defineBlock name { content with props } template.owner)

/-- What is done when the parts of a construct were evaluated, and the nodes that come of it. -/
def finish (template : Template) (begun : Begun) (nodes : List Draft) :
    Construct → Evaluate (List Draft)
  | node kind => return [← newNode (kind.relabel Empty.elim) nodes]
  | body props => return [.ofBlock (← newBlock nodes props)]
  | rawBody => do
      let _ ← fresh
      return nodes
  | element head role =>
      match begun with
      | .element empty =>
          return [← closeElement role (nodes.foldl place { element := head, body := empty })]
      | _ => failure
  | mixin name args => do
      let definition ← newNode (.mixin { name } args false) nodes
      enterMixin name definition
      return [definition]
  | named name mode =>
      match nodes.filterMap Node.block? with
      | [content] => return [.ofBlock (← defineNamed template name mode content)]
      | _ => failure
  | «include» _ =>
      match begun, nodes with
      | .included root _, [] => return [.ofBlock root]
      | .included root target, content :: _ => do
          plainly id (Parse.pushInto target content)
          return [.ofBlock root]
      | .literal text, [] => return [← newNode (.literal text) []]
      | _, _ => failure
  | «extends» _ => return [← newNode (.literal "") []]

end Construct

/-! ## Evaluation -/

namespace Phrase

mutual

/-- The nodes of a phrase. -/
def evaluate (template : Template) : Phrase → Evaluate (List Draft)
  | make construct parts => do
      let begun ← construct.begin template
      let nodes ← evaluateAll template parts
      construct.finish template begun nodes

/-- The nodes of some phrases, evaluated in order. -/
def evaluateAll (template : Template) : List Phrase → Evaluate (List Draft)
  | [] => return []
  | phrase :: phrases => return (← evaluate template phrase) ++ (← evaluateAll template phrases)

end

theorem evaluate_make (template : Template) (construct : Construct) (parts : List Phrase) :
    evaluate template (make construct parts) = (do
      let begun ← construct.begin template
      let nodes ← evaluateAll template parts
      construct.finish template begun nodes) := by
  rw [evaluate]

theorem evaluateAll_nil (template : Template) : evaluateAll template [] = pure [] := by
  rw [evaluateAll]

theorem evaluateAll_cons (template : Template) (phrase : Phrase) (phrases : List Phrase) :
    evaluateAll template (phrase :: phrases) = (do
      let nodes ← evaluate template phrase
      let more ← evaluateAll template phrases
      return nodes ++ more) := by
  rw [evaluateAll]

theorem evaluateAll_append (template : Template) (phrases more : List Phrase) :
    evaluateAll template (phrases ++ more) = (do
      let nodes ← evaluateAll template phrases
      let others ← evaluateAll template more
      return nodes ++ others) := by
  induction phrases with
  | nil => simp [evaluateAll_nil]
  | cons phrase phrases ih => simp [evaluateAll_cons, ih, ← List.append_assoc]

theorem evaluateAll_singleton (template : Template) (phrase : Phrase) :
    evaluateAll template [phrase] = evaluate template phrase := by
  simp [evaluateAll_cons, evaluateAll_nil]

/-- What holds of a phrase when it holds of its parts holds of every phrase. -/
theorem induct {motive : Phrase → Prop}
    (h : ∀ construct parts, (∀ part ∈ parts, motive part) → motive (make construct parts)) :
    ∀ phrase, motive phrase
  | make construct parts => h construct parts fun part _ => induct h part

end Phrase

end Stencil
