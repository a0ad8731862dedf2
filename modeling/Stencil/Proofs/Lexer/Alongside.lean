import Stencil.Proofs.Lexer.Approach

/-! # Alongside — two lexers and a shorthand

    A lexer reads a text with a shorthand in it, and another one the text with the
    name of the element in front of the shorthand.  They are side by side while
    the shorthand is ahead of both, and when it was looked at last, where the
    other lexer has the element and the shorthand still ahead (`Beside`).  What a
    reader asks of the two then has the same answer, up to the first token that
    goes beyond the place (`Alongside`); of what follows that token nothing is
    said, but that the shorthand starts no statement there any more (`Past`). -/

namespace Stencil

open Lexer

/-- A token of a shorthand. -/
def Token.IsShorthand (token : Token) : Prop := token.kind = .idName ∨ token.kind = .className

theorem Token.not_isShorthand {token : Token} (hid : token.kind ≠ .idName)
    (hclass : token.kind ≠ .className) : ¬ token.IsShorthand :=
  fun h => h.elim hid hclass

theorem Token.Follows.not_isShorthand {token : Token} (h : token.Follows) :
    ¬ token.IsShorthand := by
  rcases h with h | h <;> exact Token.not_isShorthand (h ▸ nofun) (h ▸ nofun)

theorem Token.not_isShorthand_of_isStructural {token : Token}
    (h : token.kind.isStructural = true) : ¬ token.IsShorthand := by
  rintro (hkind | hkind) <;> rw [hkind] at h <;> cases h

namespace Lexer

variable {α : Type} {lexer other after : Lexer} {token : Token} {place : BareShorthand}

/-! ## Shorthands that are read -/

theorem readLineBreak_isStructural {text : List Char}
    (h : lexer.readLineBreak text = (.ok token, after)) : token.kind.isStructural = true := by
  unfold readLineBreak at h
  dsimp only at h
  split at h
  · cases h
    rfl
  · split at h
    · cases h
    · split at h
      · cases h
        rfl
      · unfold placeLine at h
        dsimp only at h
        split at h
        · cases h
          rfl
        · split at h <;> cases h <;> rfl

/-- A step that gives a shorthand takes its sign from the text. -/
theorem next_shorthand (hfollows : ∀ t ∈ lexer.pending, t.Follows)
    (h : lexer.next = (.ok token, after)) (htoken : token.IsShorthand) :
    ∃ sign name, sign :: (name ++ after.input) <:+ lexer.input ∧ (sign = '#' ∨ sign = '.') := by
  have hscanned : lexer.scanLine = (.ok token, after) → ∃ sign name,
      sign :: (name ++ after.input) <:+ lexer.input ∧ (sign = '#' ∨ sign = '.') := by
    intro hscan
    unfold scanLine at hscan
    split at hscan
    · unfold readEnd at hscan
      split at hscan <;> cases hscan <;> exact absurd htoken (Token.not_isShorthand nofun nofun)
    · exact (Token.not_isShorthand_of_isStructural (readLineBreak_isStructural hscan) htoken).elim
    · split at hscan
      · cases hscan
        exact absurd htoken (Token.not_isShorthand nofun nofun)
      · split at hscan
        · unfold readAttributes at hscan
          split at hscan
          · cases hscan
          · cases hscan
            exact absurd htoken (Token.not_isShorthand nofun nofun)
        · unfold readForm at hscan
          split at hscan
          · cases hscan
          · next found hfound =>
              cases hscan
              obtain ⟨sign, name, hinput, hsign, -⟩ := Form.first?_shorthand hfound htoken
              exact ⟨sign, name, hinput ▸ List.suffix_rfl, hsign⟩
  unfold next at h
  split at h
  · next waiting pending hpending =>
      cases h
      exact absurd htoken (hfollows _ (hpending ▸ List.mem_cons_self ..)).not_isShorthand
  · rcases scan_cases lexer with hscan | ⟨text, line, -, hscan⟩ | ⟨text, line, -, hscan⟩
    · exact hscanned (hscan.symm.trans h)
    · rw [hscan] at h
      cases h
      exact absurd htoken (Token.not_isShorthand nofun nofun)
    · have hstructural := readLineBreak_isStructural (hscan.symm.trans h)
      exact (Token.not_isShorthand_of_isStructural hstructural htoken).elim

/-! ## Beyond the place -/

/-- What is left of the text is behind the sign of the shorthand. -/
structure Beyond (place : BareShorthand) (lexer : Lexer) : Prop where
  suffix : lexer.input <:+ place.name ++ place.rest
  follows : ∀ t ∈ lexer.pending, t.Follows

/-- Besides, the shorthand is not the token that was looked at last. -/
structure Past (place : BareShorthand) (lexer : Lexer) : Prop extends Beyond place lexer where
  last : lexer.input = place.rest → ∀ t ∈ lexer.stash.getLast?, ¬ t.IsShorthand

/-- An operation that ends beyond the place. -/
structure Outcome.Leaves (place : BareShorthand) (outcome : Outcome α) : Prop where
  suffix : outcome.2.input <:+ place.name ++ place.rest
  past : ∀ result, outcome.1 = .ok result → Past place outcome.2

theorem Past.leaves_ok (h : Past place lexer) (result : α) :
    Outcome.Leaves place (.ok result, lexer) := ⟨h.suffix, fun _ _ => h⟩

namespace Beyond

variable (h : Beyond place lexer)
include h

theorem next (hnext : lexer.next = (.ok token, after)) : Beyond place after where
  suffix := by
    have hsuffix := next_suffix lexer
    rw [hnext] at hsuffix
    exact hsuffix.trans h.suffix
  follows := next_follows h.follows hnext

/-- A shorthand that is read behind the place leaves less of the text than the one at the place. -/
theorem ne_rest (hnext : lexer.next = (.ok token, after)) (htoken : token.IsShorthand) :
    after.input ≠ place.rest := by
  intro hrest
  obtain ⟨sign, name, hsuffix, hsign⟩ := next_shorthand h.follows hnext htoken
  rw [hrest] at hsuffix
  obtain ⟨before, hbefore⟩ := hsuffix.trans h.suffix
  have hname : before ++ sign :: name = place.name := by
    have hwhole : (before ++ sign :: name) ++ place.rest = place.name ++ place.rest := by
      rw [← hbefore]
      simp
    exact List.append_cancel_right hwhole
  have hpart := place.inName sign (hname ▸ by simp)
  rcases hsign with rfl | rfl
  · exact absurd hpart (by decide)
  · exact absurd hpart (by decide)

/-- A look takes the next token beyond the place. -/
theorem next_stash (hnext : lexer.next = (.ok token, after)) :
    Past place { after with stash := after.stash ++ [token] } where
  suffix := (h.next hnext).suffix
  follows := (h.next hnext).follows
  last := by
    intro hrest t ht
    rw [List.getLast?_concat] at ht
    obtain rfl := Option.some.inj ht
    exact fun htoken => h.ne_rest hnext htoken hrest

theorem error_leaves {fault : LexicalFault} (hnext : lexer.next = (.error fault, after)) :
    Outcome.Leaves place (α := α) (.error fault, after) where
  suffix := by
    have hsuffix := next_suffix lexer
    rw [hnext] at hsuffix
    exact hsuffix.trans h.suffix
  past := fun _ hok => nomatch hok

end Beyond

theorem Past.stock (count : Nat) : ∀ {lexer : Lexer}, Past place lexer →
    (lexer.stock count).Leaves place := by
  induction count with
  | zero => exact fun h => h.leaves_ok ()
  | succ count ih =>
      intro lexer h
      rcases hnext : lexer.next with ⟨fault | token, after⟩
      · rw [stock_succ_of_error count hnext]
        exact h.error_leaves hnext
      · rw [stock_succ_of_ok count hnext]
        exact ih (h.next_stash hnext)

theorem Beyond.stock_succ (h : Beyond place lexer) (count : Nat) :
    (lexer.stock (count + 1)).Leaves place := by
  rcases hnext : lexer.next with ⟨fault | token, after⟩
  · rw [stock_succ_of_error count hnext]
    exact h.error_leaves hnext
  · rw [stock_succ_of_ok count hnext]
    exact (h.next_stash hnext).stock count

theorem Outcome.Leaves.looked {outcome : Outcome Unit} (h : outcome.Leaves place) (offset : Nat) :
    (looked offset outcome).Leaves place := by
  rcases outcome with ⟨fault | _, after⟩
  · exact ⟨h.suffix, fun _ hok => nomatch hok⟩
  · exact (h.past () rfl).leaves_ok _

theorem Past.peekAt (h : Past place lexer) (offset : Nat) : (lexer.peekAt offset).Leaves place := by
  rw [peekAt_eq_looked]
  exact (h.stock _).looked offset

/-- A step with nothing looked at takes the next token beyond the place. -/
theorem Beyond.next_leaves (h : Beyond place lexer) (hstash : lexer.stash = []) :
    lexer.next.Leaves place := by
  rcases hnext : lexer.next with ⟨fault | token, after⟩
  · exact h.error_leaves hnext
  · have hempty : after.stash = [] := (next_queues hnext).2.trans hstash
    refine Past.leaves_ok ⟨h.next hnext, fun _ t ht => ?_⟩ token
    rw [hempty] at ht
    cases ht

theorem Past.advance (h : Past place lexer) : lexer.advance.Leaves place := by
  unfold Lexer.advance
  split
  · next token deferred _ =>
      have hpast : Past place { lexer with deferred } := ⟨⟨h.suffix, h.follows⟩, h.last⟩
      exact hpast.leaves_ok token
  · split
    · next token stash hstash =>
        have hpast : Past place { lexer with stash } := by
          refine ⟨⟨h.suffix, h.follows⟩, fun hrest t ht => h.last hrest t ?_⟩
          rw [hstash]
          cases stash with
          | nil => cases ht
          | cons _ _ => exact ht
        exact hpast.leaves_ok token
    · next hstash => exact h.toBeyond.next_leaves hstash

theorem Past.defer (h : Past place lexer) (token : Token) : Past place (lexer.defer token) :=
  ⟨⟨h.suffix, h.follows⟩, h.last⟩

theorem Past.inMode (h : Past place lexer) (mode : Mode) : Past place { lexer with mode } :=
  ⟨⟨h.suffix, h.follows⟩, h.last⟩

/-! ## Side by side -/

/-- A lexer that has looked at the shorthand, and has what is behind it before it. -/
def seen (place : BareShorthand) (lexer : Lexer) : Lexer :=
  { lexer with stash := lexer.stash ++ [place.token lexer.line], input := place.rest }

/-- A lexer that has looked at the element, and has the shorthand before it. -/
def seenFull (place : BareShorthand) (lexer : Lexer) : Lexer :=
  { lexer with stash := lexer.stash ++ [⟨lexer.line, .tag "div" false⟩], input := place.text }

/-- Two lexers that have come equally far, over a text with a shorthand ahead and over the one with
    the name of the element in front of it. -/
inductive Beside (place : BareShorthand) : Lexer → Lexer → Prop where
  /-- The place is ahead. -/
  | ahead (lexer : Lexer) (approach : Approach lexer.input)
      (follows : ∀ t ∈ lexer.pending, t.Follows) :
      Beside place (lexer.withTail place.text) (lexer.withTail place.full)
  /-- The token at the place was looked at last. -/
  | seen (lexer : Lexer) (pending : lexer.pending = []) :
      Beside place (lexer.seen place) (lexer.seenFull place)

/-- What comes of an operation on two lexers side by side. -/
inductive Alongside (place : BareShorthand) (bare full : Outcome α) : Prop where
  | inStep {result : α} {lexer other : Lexer} (bare_eq : bare = (.ok result, lexer))
      (full_eq : full = (.ok result, other)) (beside : Beside place lexer other)
  | stopped {fault : LexicalFault} {lexer : Lexer}
      (bare_eq : bare = (.error fault, lexer.withTail place.text))
      (full_eq : full = (.error fault, lexer.withTail place.full))
  | past (leaves : bare.Leaves place)

namespace Beside

variable (h : Beside place lexer other)
include h

theorem lock : lexer.lock = other.lock := by cases h <;> rfl

theorem line : lexer.line = other.line := by cases h <;> rfl

theorem defer (token : Token) : Beside place (lexer.defer token) (other.defer token) := by
  cases h with
  | ahead core approach follows => exact .ahead (core.defer token) approach follows
  | seen core pending => exact .seen (core.defer token) pending

theorem inMode (mode : Mode) : Beside place { lexer with mode } { other with mode } := by
  cases h with
  | ahead core approach follows => exact .ahead { core with mode } approach follows
  | seen core pending => exact .seen { core with mode } pending

/-- There is no less to read with the name of the element. -/
theorem potential_le : lexer.potential ≤ other.potential := by
  cases h with
  | ahead core =>
      have hlength : (core.input ++ place.text).length ≤ (core.input ++ place.full).length := by
        simp only [BareShorthand.full, List.length_append]
        omega
      dsimp only [potential, withTail]
      omega
  | seen core =>
      have hlength : place.rest.length ≤ place.text.length := by
        rw [BareShorthand.text, List.length_cons, List.length_append]
        omega
      have hbare : countOpen [place.token core.line] ≤ 1 := List.length_filter_le _ _
      have hfull : countOpen [(⟨core.line, .tag "div" false⟩ : Token)] = 1 := rfl
      dsimp only [potential, Lexer.seen, Lexer.seenFull]
      rw [countOpen_append, countOpen_append, hfull]
      omega

end Beside

theorem seen_beyond (place : BareShorthand) (hpending : lexer.pending = []) :
    Beyond place (lexer.seen place) where
  suffix := List.suffix_append place.name place.rest
  follows := by
    intro t ht
    rw [show (lexer.seen place).pending = [] from hpending] at ht
    cases ht

/-- **Stocking** goes on side by side. -/
theorem Beside.stock (count : Nat) : ∀ {lexer other : Lexer}, Beside place lexer other →
    Alongside place (lexer.stock count) (other.stock count) := by
  induction count with
  | zero => exact fun h => .inStep rfl rfl h
  | succ count ih =>
      intro lexer other h
      cases h with
      | seen core pending => exact .past ((seen_beyond place pending).stock_succ count)
      | ahead core approach follows =>
          cases next_reaches place approach with
          | kept outcome bare full approach' =>
              rcases outcome with ⟨fault | token, after⟩
              · exact .stopped (stock_succ_of_error count bare) (stock_succ_of_error count full)
              · rw [stock_succ_of_ok count bare, stock_succ_of_ok count full]
                have follows' : ∀ t ∈ (core.withTail place.text).pending, t.Follows := follows
                have hpending : ∀ t ∈ (after.withTail place.text).pending, t.Follows :=
                  next_follows follows' bare
                exact ih (.ahead { after with stash := after.stash ++ [token] }
                  (approach' token rfl) hpending)
          | here after pending bare full =>
              rw [stock_succ_of_ok count bare, stock_succ_of_ok count full]
              exact ih (.seen after pending)
          | past token after bare suffix kind =>
              rw [stock_succ_of_ok count bare]
              have hpast : Past place { after with stash := after.stash ++ [token] } := by
                have follows' : ∀ t ∈ (core.withTail place.text).pending, t.Follows := follows
                have hpending : ∀ t ∈ after.pending, t.Follows := next_follows follows' bare
                refine ⟨⟨suffix, hpending⟩, fun _ t ht => ?_⟩
                rw [List.getLast?_concat] at ht
                obtain rfl := Option.some.inj ht
                exact Token.not_isShorthand kind.1 kind.2
              exact .past (hpast.stock count)

/-! ## Looks and steps -/

/-- A look at the token at the place: one lexer has the shorthand there, the other the element. -/
inductive Met (place : BareShorthand) (offset : Nat) (bare full : Outcome Token) : Prop where
  | met (core : Lexer) (pending : core.pending = [])
      (last : (core.deferred ++ core.stash).length = offset)
      (bare_eq : bare = (.ok (place.token core.line), core.seen place))
      (full_eq : full = (.ok ⟨core.line, .tag "div" false⟩, core.seenFull place))

/-- **A look** has the same answer in both lexers, or comes to the place. -/
theorem Beside.peekAt (h : Beside place lexer other) (offset : Nat) :
    Alongside place (lexer.peekAt offset) (other.peekAt offset)
      ∨ Met place offset (lexer.peekAt offset) (other.peekAt offset) := by
  have hcount : other.deferred.length + other.stash.length
      = lexer.deferred.length + lexer.stash.length := by
    cases h with
    | ahead core => rfl
    | seen core => simp [Lexer.seen, Lexer.seenFull]
  rw [peekAt_eq_looked, peekAt_eq_looked, hcount]
  cases h.stock (offset + 1 - (lexer.deferred.length + lexer.stash.length)) with
  | stopped bare_eq full_eq =>
      rw [bare_eq, full_eq]
      exact .inl (.stopped rfl rfl)
  | past leaves => exact .inl (.past (leaves.looked offset))
  | inStep bare_eq full_eq beside =>
      rw [bare_eq, full_eq]
      cases beside with
      | ahead core approach follows => exact .inl (.inStep rfl rfl (.ahead core approach follows))
      | seen core pending =>
          have hlist : ∀ token : Token, core.deferred ++ (core.stash ++ [token])
              = core.deferred ++ core.stash ++ [token] := fun token => by simp
          by_cases hoffset : (core.deferred ++ core.stash).length = offset
          · have hget : ∀ token default : Token,
                (core.deferred ++ (core.stash ++ [token])).getD offset default = token := by
              intro token default
              rw [hlist, ← hoffset, List.getD_eq_getElem?_getD, List.getElem?_concat_length]
              rfl
            refine .inr (.met core pending hoffset ?_ ?_)
            · exact congrArg (fun token => (Except.ok token, core.seen place)) (hget _ _)
            · exact congrArg (fun token => (Except.ok token, core.seenFull place)) (hget _ _)
          · have hget : ∀ token other default : Token,
                (core.deferred ++ (core.stash ++ [token])).getD offset default
                  = (core.deferred ++ (core.stash ++ [other])).getD offset default := by
              intro token other default
              rw [hlist, hlist, List.getD_eq_getElem?_getD, List.getD_eq_getElem?_getD]
              rcases Nat.lt_or_gt_of_ne hoffset with hlt | hgt
              · have hend : ∀ token : Token,
                    (core.deferred ++ core.stash ++ [token]).length ≤ offset := fun token => by
                  rw [List.length_append]
                  exact hlt
                rw [List.getElem?_eq_none (hend token), List.getElem?_eq_none (hend other)]
              · rw [List.getElem?_append_left hgt, List.getElem?_append_left hgt]
            refine .inl (.inStep ?_ rfl (.seen core pending))
            exact congrArg (fun token => (Except.ok token, core.seen place)) (hget _ _ _)

theorem advance_deferred {deferred : List Token} (h : lexer.deferred = token :: deferred) :
    lexer.advance = (.ok token, { lexer with deferred }) := by
  unfold Lexer.advance
  rw [h]
  rfl

theorem advance_stash {stash : List Token} (hdeferred : lexer.deferred = [])
    (h : lexer.stash = token :: stash) : lexer.advance = (.ok token, { lexer with stash }) := by
  unfold Lexer.advance
  rw [h]
  split
  · next hnil => cases hdeferred.symm.trans hnil
  · rfl

theorem advance_next (hdeferred : lexer.deferred = []) (hstash : lexer.stash = []) :
    lexer.advance = lexer.next := by
  unfold Lexer.advance
  rw [hdeferred, hstash]

/-- A step takes the shorthand when nothing is in front of it. -/
theorem advance_seen (hpending : lexer.pending = []) (hdeferred : lexer.deferred = [])
    (hstash : lexer.stash = []) : (lexer.seen place).advance.Leaves place := by
  have hwaiting : (lexer.seen place).stash = [place.token lexer.line] := by
    rw [Lexer.seen, hstash]
    rfl
  have hpast : Past place { lexer.seen place with stash := [] } :=
    ⟨⟨(seen_beyond place hpending).suffix, (seen_beyond place hpending).follows⟩,
      fun _ _ ht => nomatch ht⟩
  have hnone : (lexer.seen place).deferred = [] := hdeferred
  rw [advance_stash hnone hwaiting]
  exact hpast.leaves_ok _

/-- A step with nothing looked at. -/
theorem next_alongside (approach : Approach lexer.input) (follows : ∀ t ∈ lexer.pending, t.Follows)
    (hstash : lexer.stash = []) :
    Alongside place (lexer.withTail place.text).next (lexer.withTail place.full).next := by
  have hfollows : ∀ t ∈ (lexer.withTail place.text).pending, t.Follows := follows
  have hempty : ∀ {result : Except LexicalFault Token} {after : Lexer},
      (lexer.withTail place.text).next = (result, after) → ∀ t, t ∉ after.stash.getLast? := by
    intro result after hnext t ht
    rw [(next_queues hnext).2.trans hstash] at ht
    cases ht
  cases next_reaches place approach with
  | kept outcome bare full approach' =>
      rcases outcome with ⟨fault | token, after⟩
      · exact .stopped bare full
      · have hpending : ∀ t ∈ (after.withTail place.text).pending, t.Follows :=
          next_follows hfollows bare
        exact .inStep bare full (.ahead after (approach' token rfl) hpending)
  | here after pending bare full =>
      have hpast : Past place { after with input := place.rest } :=
        ⟨⟨List.suffix_append _ _, next_follows hfollows bare⟩,
          fun _ t ht => absurd ht (hempty bare t)⟩
      rw [bare]
      exact .past (hpast.leaves_ok _)
  | past token after bare suffix kind =>
      have hpast : Past place after :=
        ⟨⟨suffix, next_follows hfollows bare⟩, fun _ t ht => absurd ht (hempty bare t)⟩
      rw [bare]
      exact .past (hpast.leaves_ok token)

/-- **A step** gives the same token in both lexers, or takes the shorthand. -/
theorem Beside.advance (h : Beside place lexer other) :
    Alongside place lexer.advance other.advance := by
  cases h with
  | ahead core approach follows =>
      rcases hdeferred : core.deferred with - | ⟨token, deferred⟩
      · have hdeferred' : ∀ more, (core.withTail more).deferred = [] := fun _ => hdeferred
        rcases hstash : core.stash with - | ⟨token, stash⟩
        · have hstash' : ∀ more, (core.withTail more).stash = [] := fun _ => hstash
          rw [advance_next (hdeferred' _) (hstash' _), advance_next (hdeferred' _) (hstash' _)]
          exact next_alongside approach follows hstash
        · have hstash' : ∀ more, (core.withTail more).stash = token :: stash := fun _ => hstash
          exact .inStep (advance_stash (hdeferred' _) (hstash' _))
            (advance_stash (hdeferred' _) (hstash' _)) (.ahead { core with stash } approach follows)
      · have hdeferred' : ∀ more, (core.withTail more).deferred = token :: deferred :=
          fun _ => hdeferred
        exact .inStep (advance_deferred (hdeferred' _)) (advance_deferred (hdeferred' _))
          (.ahead { core with deferred } approach follows)
  | seen core pending =>
      have hstash : (core.seen place).stash = core.stash ++ [place.token core.line] := rfl
      have hstash' : (core.seenFull place).stash = core.stash ++ [⟨core.line, .tag "div" false⟩] :=
        rfl
      rcases hdeferred : core.deferred with - | ⟨token, deferred⟩
      · have hnone : (core.seen place).deferred = [] := hdeferred
        have hnone' : (core.seenFull place).deferred = [] := hdeferred
        rcases hqueue : core.stash with - | ⟨token, stash⟩
        · exact .past (advance_seen pending hdeferred hqueue)
        · rw [hqueue, List.cons_append] at hstash hstash'
          exact .inStep (advance_stash hnone hstash) (advance_stash hnone' hstash')
            (.seen { core with stash } pending)
      · have hsome : (core.seen place).deferred = token :: deferred := hdeferred
        have hsome' : (core.seenFull place).deferred = token :: deferred := hdeferred
        exact .inStep (advance_deferred hsome) (advance_deferred hsome')
          (.seen { core with deferred } pending)

/-! ## The shorthand in front of a statement -/

/-- A lexer that has looked at the shorthand and at nothing else, between statements. -/
structure Faces (place : BareShorthand) (lexer : Lexer) : Prop where
  mode : lexer.mode = .markup
  deferred : lexer.deferred = []
  stash : lexer.stash = [place.token lexer.line]
  pending : lexer.pending = []
  input : lexer.input = place.rest

instance (place : BareShorthand) (lexer : Lexer) : Decidable (Faces place lexer) :=
  decidable_of_iff
    (lexer.mode = .markup ∧ lexer.deferred = [] ∧ lexer.stash = [place.token lexer.line]
      ∧ lexer.pending = [] ∧ lexer.input = place.rest)
    ⟨fun ⟨mode, deferred, stash, pending, input⟩ => ⟨mode, deferred, stash, pending, input⟩,
      fun h => ⟨h.mode, h.deferred, h.stash, h.pending, h.input⟩⟩

/-- The next token is the shorthand at the place, read between statements. -/
def Opens (place : BareShorthand) (lexer : Lexer) : Prop :=
  match lexer.peekAt 0 with
  | (.ok _, after) => Faces place after
  | (.error _, _) => False

instance (place : BareShorthand) (lexer : Lexer) : Decidable (Opens place lexer) :=
  match h : lexer.peekAt 0 with
  | (.ok _, after) => decidable_of_iff (Faces place after) (by rw [Opens, h])
  | (.error _, _) => .isFalse (by rw [Opens, h]; exact id)

theorem token_isShorthand (place : BareShorthand) (line : Int) : (place.token line).IsShorthand :=
  place.sign_eq.imp (fun h => if_pos h) fun h => if_neg (h ▸ by decide)

theorem Past.not_faces (h : Past place lexer) : ¬ Faces place lexer := by
  intro hfaces
  refine h.last hfaces.input (place.token lexer.line) ?_ (token_isShorthand place _)
  rw [hfaces.stash]
  rfl

/-- Past the place the shorthand does not come up again. -/
theorem Past.not_opens (h : Past place lexer) : ¬ Opens place lexer := by
  intro hopens
  have hleaves := h.peekAt 0
  unfold Opens at hopens
  split at hopens
  · next token after hpeek =>
      rw [hpeek] at hleaves
      exact (hleaves.past token rfl).not_faces hopens
  · exact hopens

end Lexer

end Stencil
