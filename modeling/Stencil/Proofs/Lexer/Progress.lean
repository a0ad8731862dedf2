import Stencil.Lexer.Stream
import Stencil.Proofs.Lexer.Shortening

/-! # Progress — every token lowers the potential

    The potential of a lexer counts two for every character that is left and
    one for every open level and every waiting token.  A scan that takes a
    character pays with it for the level it opens or the colon it makes pending;
    a scan that takes none closes a level, or says that the stream has ended.
    So `next_progress`: a token that does not end the stream lowers the
    potential, and one that does never raises it. -/

namespace Stencil.Lexer

@[simp] theorem countOpen_nil : countOpen [] = 0 := rfl

@[simp] theorem countOpen_append (tokens more : List Token) :
    countOpen (tokens ++ more) = countOpen tokens + countOpen more := by
  rw [countOpen, List.filter_append, List.length_append]
  rfl

theorem countOpen_cons_of_ne {token : Token} (h : token.kind ≠ .eos) (tokens : List Token) :
    countOpen (token :: tokens) = countOpen tokens + 1 := by
  rw [countOpen, List.filter_cons_of_pos (by simpa using h)]
  rfl

theorem countOpen_cons_of_eos {token : Token} (h : token.kind = .eos) (tokens : List Token) :
    countOpen (token :: tokens) = countOpen tokens := by
  rw [countOpen, List.filter_cons_of_neg (by simpa using h)]
  rfl

theorem countOpen_le_length (tokens : List Token) : countOpen tokens ≤ tokens.length :=
  List.length_filter_le _ _

/-- A step between two lexers that gives out a token: what it does to the potential. -/
structure Progresses (before : Lexer) (token : Token) (after : Lexer) : Prop where
  le : after.potential ≤ before.potential
  lt : token.kind ≠ .eos → after.potential < before.potential

theorem Progresses.of_lt {before after : Lexer} {token : Token}
    (h : after.potential < before.potential) : Progresses before token after :=
  ⟨Nat.le_of_lt h, fun _ => h⟩

/-- A step from a lexer with a smaller potential. -/
theorem Progresses.trans_le {first before after : Lexer} {token : Token}
    (h : Progresses before token after) (hle : before.potential ≤ first.potential) :
    Progresses first token after :=
  ⟨Nat.le_trans h.le hle, fun hne => Nat.lt_of_lt_of_le (h.lt hne) hle⟩

variable {lexer after : Lexer} {token : Token} {text : List Char}

/-! ## Line breaks -/

theorem enterLine_potential_le (hinput : lexer.input = '\n' :: text) :
    (lexer.enterLine text).potential + 2 ≤ lexer.potential := by
  have : (lexer.enterLine text).input.length ≤ text.length := by
    rw [enterLine, List.length_drop]
    exact Nat.sub_le _ _
  simp only [potential, hinput, List.length_cons]
  simp only [enterLine] at *
  omega

theorem closeLevels_potential_le {width : Nat}
    (h : lexer.closeLevels width = (.ok token, after)) : after.potential ≤ lexer.potential := by
  have hsplit : (lexer.levels.takeWhile (width < ·)).length
      + (lexer.levels.dropWhile (width < ·)).length = lexer.levels.length := by
    rw [← List.length_append, List.takeWhile_append_dropWhile]
  obtain rfl : _ = after := congrArg Prod.snd h
  -- one outdent is given out, so at most as many wait as levels are closed
  have := countOpen_le_length (List.replicate
    ((lexer.levels.takeWhile (width < ·)).length - 1) (lexer.token .outdent))
  rw [List.length_replicate] at this
  simp only [closeLevels, potential, emit, countOpen_append]
  omega

theorem placeLine_potential_le {width : Nat} (h : lexer.placeLine width = (.ok token, after)) :
    after.potential ≤ lexer.potential + 1 := by
  unfold placeLine at h
  simp only at h
  split at h
  · exact Nat.le_succ_of_le (closeLevels_potential_le h)
  · split at h
    · -- an indent opens one level, and the line feed in front of it has paid for that
      obtain rfl : _ = after := congrArg Prod.snd h
      simp only [potential, emit, List.length_cons]
      omega
    · obtain rfl : _ = after := congrArg Prod.snd h
      exact Nat.le_succ _

theorem readLineBreak_progress (hinput : lexer.input = '\n' :: text)
    (h : lexer.readLineBreak text = (.ok token, after)) : Progresses lexer token after := by
  have hentered := enterLine_potential_le hinput
  refine .of_lt ?_
  unfold readLineBreak at h
  simp only at h
  split at h
  · obtain rfl : _ = after := congrArg Prod.snd h
    simp only [emit]
    omega
  · split at h
    · cases h
    · split at h
      · obtain rfl : _ = after := congrArg Prod.snd h
        simp only [emit]
        omega
      · have := placeLine_potential_le h
        omega

/-! ## Scans of a line -/

/-- The number of parentheses that are open behind a text, from the number of those before it;
    none if one is closed that is not open. -/
def depthAfter : Nat → List Char → Option Nat
  | depth, [] => some depth
  | depth, c :: rest =>
      if c == '(' then depthAfter (depth + 1) rest
      else if c == ')' then
        match depth with
        | 0 => none
        | depth + 1 => depthAfter depth rest
      else depthAfter depth rest

/-- **A group goes up to the first parenthesis that closes it**, and in what it holds every
    parenthesis is closed. -/
theorem group?_eq_some_iff {depth : Nat} {text body rest : List Char} :
    group? depth text = some (body, rest)
      ↔ depthAfter depth body = some 0 ∧ text = body ++ ')' :: rest := by
  constructor
  · intro h
    induction text generalizing depth body with
    | nil => exact nomatch h
    | cons c text ih =>
        have hmap : ∀ {inner : Nat}, (group? inner text).map
            (fun found => (c :: found.1, found.2)) = some (body, rest) →
            ∃ more, body = c :: more ∧ depthAfter inner more = some 0
              ∧ text = more ++ ')' :: rest := by
          intro inner hmap
          obtain ⟨⟨more, other⟩, hgroup, hpair⟩ := Option.map_eq_some_iff.mp hmap
          obtain ⟨rfl, rfl⟩ := Prod.mk.inj hpair
          exact ⟨more, rfl, ih hgroup⟩
        unfold group? at h
        split at h
        · next hopening =>
            obtain ⟨more, rfl, hdepth, rfl⟩ := hmap h
            exact ⟨by simp [depthAfter, hopening, hdepth], rfl⟩
        · next hopening =>
            split at h
            · next hclosing =>
                split at h
                · obtain ⟨rfl, rfl⟩ := Prod.mk.inj (Option.some.inj h)
                  exact ⟨rfl, by rw [beq_iff_eq.mp hclosing, List.nil_append]⟩
                · obtain ⟨more, rfl, hdepth, rfl⟩ := hmap h
                  exact ⟨by simp [depthAfter, hopening, hclosing, hdepth], rfl⟩
            · next hclosing =>
                obtain ⟨more, rfl, hdepth, rfl⟩ := hmap h
                exact ⟨by simp [depthAfter, hopening, hclosing, hdepth], rfl⟩
  · rintro ⟨hdepth, rfl⟩
    fun_induction depthAfter depth body with
    | case1 depth =>
        obtain rfl : depth = 0 := Option.some.inj hdepth
        simp [group?]
    | case2 depth c body hopening ih => simp [group?, hopening, ih hdepth]
    | case3 => exact nomatch hdepth
    | case4 c body hopening hclosing depth ih => simp [group?, hopening, hclosing, ih hdepth]
    | case5 depth c body hopening hclosing ih => simp [group?, hopening, hclosing, ih hdepth]

theorem group?_length {depth : Nat} {text body rest : List Char}
    (h : group? depth text = some (body, rest)) : rest.length < text.length := by
  rw [(group?_eq_some_iff.mp h).2, List.length_append, List.length_cons]
  omega

theorem readAttributes_progress {c : Char} (hinput : lexer.input = c :: text)
    (h : lexer.readAttributes text = (.ok token, after)) : Progresses lexer token after := by
  refine .of_lt ?_
  unfold readAttributes at h
  split at h
  · cases h
  · next body rest hgroup =>
      obtain rfl : _ = after := congrArg Prod.snd h
      have := group?_length hgroup
      have := Form.closed_length_le rest
      simp only [potential, emit, hinput, List.length_cons]
      omega

theorem readRawLine_progress {c : Char} (hinput : lexer.input = c :: text) (hc : c ≠ '\n')
    (h : lexer.readRawLine = (.ok token, after)) : Progresses lexer token after := by
  refine .of_lt ?_
  obtain rfl : _ = after := congrArg Prod.snd h
  have hrest : (Text.splitLine lexer.input).2.length < lexer.input.length := by
    rw [hinput, Text.splitLine, List.dropWhile_cons_of_pos (by simpa using hc)]
    exact Nat.lt_succ_of_le (List.dropWhile_sublist _).length_le
  simp only [readRawLine, potential, emit]
  omega

theorem readEnd_progress (h : lexer.readEnd = (.ok token, after)) :
    Progresses lexer token after := by
  unfold readEnd at h
  split at h
  · cases h
    exact ⟨Nat.le_refl _, fun hne => absurd rfl hne⟩
  · next level levels hlevels =>
      obtain rfl : _ = after := congrArg Prod.snd h
      refine .of_lt ?_
      simp only [potential, emit, hlevels, List.length_cons]
      omega

theorem readForm_progress (h : lexer.readForm = (.ok token, after)) :
    Progresses lexer token after := by
  refine .of_lt ?_
  unfold readForm at h
  split at h
  · cases h
  · next found hfound =>
      obtain rfl : _ = after := congrArg Prod.snd h
      have := Form.first?_shortens hfound
      -- the form took a character, which pays for the colon that may wait
      have hcolon : countOpen (if found.colon then [lexer.token .colon] else []) ≤ 1 := by
        split
        · exact countOpen_le_length _
        · exact Nat.zero_le _
      simp only [potential, emit, countOpen_append]
      omega

/-! ## The step -/

theorem scanLine_progress (h : lexer.scanLine = (.ok token, after)) :
    Progresses lexer token after := by
  unfold scanLine at h
  split at h
  · exact readEnd_progress h
  · next text hinput => exact readLineBreak_progress hinput h
  · next c text hc hinput =>
      split at h
      · exact readRawLine_progress hinput (by rintro rfl; exact hc rfl) h
      · split at h
        · exact readAttributes_progress hinput h
        · exact readForm_progress h

theorem afterBlankLine?_length {rest : List Char} (h : afterBlankLine? text = some rest) :
    rest.length < text.length := by
  unfold afterBlankLine? at h
  split at h
  · next after =>
      simp only [Option.ite_none_right_eq_some, Option.some.injEq] at h
      rw [← h.2]
      exact Nat.lt_succ_of_le (Form.dropSpaces_length_le after)
  · exact nomatch h

theorem skipBlankLines_potential_le (fuel : Nat) :
    ∀ lexer : Lexer, (lexer.skipBlankLines fuel).potential ≤ lexer.potential := by
  induction fuel with
  | zero => intro lexer; exact Nat.le_refl _
  | succ fuel ih =>
      intro lexer
      unfold skipBlankLines
      split
      · next rest hrest =>
          have := afterBlankLine?_length hrest
          refine Nat.le_trans (ih _) ?_
          simp only [potential]
          omega
      · exact Nat.le_refl _

theorem scan_progress (h : lexer.scan = (.ok token, after)) : Progresses lexer token after := by
  unfold scan at h
  split at h
  · exact scanLine_progress h
  · next rest hrest =>
      have := afterBlankLine?_length hrest
      have hentered : { lexer with input := rest, line := lexer.line + 1 }.potential
          < lexer.potential := by
        simp only [potential]
        omega
      simp only at h
      split at h
      · obtain rfl : _ = after := congrArg Prod.snd h
        exact .of_lt hentered
      · refine (scanLine_progress h).trans_le ?_
        exact Nat.le_trans (skipBlankLines_potential_le _ _) (Nat.le_of_lt hentered)

/-- **Every token lowers the potential**, unless it ends the stream. -/
theorem next_progress (h : lexer.next = (.ok token, after)) : Progresses lexer token after := by
  unfold next at h
  split at h
  · next waiting pending hpending =>
      cases h
      by_cases heos : token.kind = .eos
      · refine ⟨?_, fun hne => absurd heos hne⟩
        simp only [potential, hpending, countOpen_cons_of_eos heos]
        omega
      · refine .of_lt ?_
        simp only [potential, hpending, countOpen_cons_of_ne heos]
        omega
  · exact scan_progress h

end Stencil.Lexer
