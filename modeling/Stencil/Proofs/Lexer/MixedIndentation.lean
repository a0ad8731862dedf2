import Stencil.Proofs.Lexer.LineByLine

/-! # Mixed indentation — refused exactly where it starts

    A template is indented with spaces or with tabs.  The first line with an
    indentation settles which, every later line is measured in that character, and
    one that goes on with the other is refused.

    So a source is refused exactly when its margins are mixed, whichever of them
    come first, and it is refused at the first line that does not go on in the
    style of the lines before it, behind all that these say
    (`mixedIndentation_iff`). -/

namespace Stencil

open Text

/-- A margin that is made of one character. -/
def ConsistsOf (c : Char) (margin : List Char) : Prop := ∀ d ∈ margin, d = c

-- without the list, every character there is would be tried
instance (c : Char) (margin : List Char) : Decidable (ConsistsOf c margin) :=
  List.decidableBAll (· = c) margin

/-- Margins in both styles: one of them has both characters, or two that are not empty have
    different ones. -/
def Mixed (margins : List (List Char)) : Prop :=
  (∃ margin ∈ margins, ' ' ∈ margin ∧ '\t' ∈ margin)
    ∨ ∃ margin ∈ margins, ∃ other ∈ margins, margin ≠ [] ∧ other ≠ []
      ∧ ConsistsOf ' ' margin ∧ ConsistsOf '\t' other

instance (margins : List (List Char)) : Decidable (Mixed margins) :=
  inferInstanceAs (Decidable (_ ∨ _))

theorem inOneStyle_iff {margins : List (List Char)} :
    InOneStyle margins ↔ (∀ margin ∈ margins, ConsistsOf ' ' margin)
      ∨ ∀ margin ∈ margins, ConsistsOf '\t' margin := by
  constructor
  · rintro ⟨style | style, hstyle⟩
    · exact .inr hstyle
    · exact .inl hstyle
  · rintro (hspaces | htabs)
    · exact ⟨.spaces, hspaces⟩
    · exact ⟨.tabs, htabs⟩

instance (margins : List (List Char)) : Decidable (InOneStyle margins) :=
  decidable_of_iff _ inOneStyle_iff.symm

/-- Margins of spaces and tabs are mixed when they are not in one style. -/
theorem mixed_iff {margins : List (List Char)}
    (h : ∀ margin ∈ margins, ∀ c ∈ margin, isIndentation c = true) :
    Mixed margins ↔ ¬ InOneStyle margins := by
  have hother : ∀ margin ∈ margins, ∀ c ∈ margin, c = ' ' ∨ c = '\t' := by
    intro margin hmargin c hc
    have hindentation := h margin hmargin c hc
    rwa [isIndentation, Bool.or_eq_true, beq_iff_eq, beq_iff_eq] at hindentation
  rw [inOneStyle_iff]
  constructor
  · rintro (⟨margin, hmargin, hspace, htab⟩ | ⟨margin, hmargin, other, hother, hne, hne', hspaces,
      htabs⟩) (hall | hall)
    · exact absurd (hall margin hmargin _ htab) (by decide)
    · exact absurd (hall margin hmargin _ hspace) (by decide)
    · obtain ⟨c, rest, rfl⟩ := List.exists_cons_of_ne_nil hne'
      exact absurd ((hall _ hother c (.head _)).symm.trans (htabs c (.head _))) (by decide)
    · obtain ⟨c, rest, rfl⟩ := List.exists_cons_of_ne_nil hne
      exact absurd ((hall _ hmargin c (.head _)).symm.trans (hspaces c (.head _))) (by decide)
  · intro hnot
    obtain ⟨hspaces, htabs⟩ := not_or.mp hnot
    simp only [ConsistsOf, not_forall] at hspaces htabs
    obtain ⟨tabbed, htabbed, c, hc, hcne⟩ := hspaces
    obtain ⟨spaced, hspaced, d, hd, hdne⟩ := htabs
    obtain rfl := (hother tabbed htabbed c hc).resolve_left hcne
    obtain rfl := (hother spaced hspaced d hd).resolve_right hdne
    -- one of the two margins has both characters, or each of them has one
    by_cases hboth : ' ' ∈ tabbed
    · exact .inl ⟨tabbed, htabbed, hboth, hc⟩
    · by_cases hboth' : '\t' ∈ spaced
      · exact .inl ⟨spaced, hspaced, hd, hboth'⟩
      · refine .inr ⟨spaced, hspaced, tabbed, htabbed, List.ne_nil_of_mem hd,
          List.ne_nil_of_mem hc, fun e he => ?_, fun e he => ?_⟩
        · exact (hother spaced hspaced e he).resolve_right fun htab => hboth' (htab ▸ he)
        · exact (hother tabbed htabbed e he).resolve_left fun hspace => hboth (hspace ▸ he)

/-- Margins that are not in one style have a first one that is not in the style before it. -/
theorem exists_first_mixed {lines : List (List Char)}
    (h : ¬ InOneStyle (lines.map indentation)) :
    ∃ before line after, lines = before ++ line :: after ∧ InOneStyle (before.map indentation)
      ∧ ¬ InOneStyle ((before ++ [line]).map indentation) := by
  induction lines using List.reverseRecOn with
  | nil => exact absurd ⟨.spaces, nofun⟩ h
  | append_singleton lines line ih =>
      by_cases hlines : InOneStyle (lines.map indentation)
      · exact ⟨lines, line, [], rfl, hlines, h⟩
      · obtain ⟨before, other, after, rfl, hbefore, hmixed⟩ := ih hlines
        exact ⟨before, other, after ++ [line], by simp, hbefore, hmixed⟩

namespace Text

variable {lines others : List (List Char)}

theorem followed_append (lines others : List (List Char)) :
    followed (lines ++ others) = followed lines ++ followed others := by
  induction lines with
  | nil => rfl
  | cons line lines ih =>
      rw [List.cons_append, followed, ih, followed, List.cons_append, List.append_assoc]

/-- Bringing line ends to line feeds adds no other character. -/
theorem mem_of_mem_normalizeNewlines {c : Char} (hc : c ≠ '\n') {text : List Char}
    (h : c ∈ normalizeNewlines text) : c ∈ text := by
  fun_induction normalizeNewlines text with
  | case1 => exact h
  | case2 rest ih => exact .tail _ (.tail _ (ih ((List.mem_cons.mp h).resolve_left hc)))
  | case3 rest _ ih => exact .tail _ (ih ((List.mem_cons.mp h).resolve_left hc))
  | case4 d rest _ _ ih =>
      exact (List.mem_cons.mp h).elim (fun heq => heq ▸ .head _) fun hmem => .tail _ (ih hmem)

end Text

namespace Lexer

variable {mode : Mode} {colons : Bool} {source : String} {first line : List Char}
  {lines before after : List (List Char)}

/-- Lines without lists can be read, whatever they are. -/
theorem readable_of_filled (hone : '\n' ∉ line) (hfilled : content line ≠ [])
    (hlists : '(' ∉ line) : Readable mode colons line :=
  ⟨hone, hfilled, ends_alone (not_mem_content hone) (not_mem_content hlists)⟩

/-- **The first line that does not go on in the style of the lines before** is where the tokens
    end, and those before it are the tokens of the lines before. -/
theorem drain_of_mixed (hfirst : '\n' ∉ first)
    (hends : (alone mode colons first).drain.2.1 = none)
    (hbefore : ∀ line ∈ before, Readable mode colons line) (hline : Readable mode colons line)
    (hstyle : InOneStyle (before.map indentation))
    (hmixed : ¬ InOneStyle ((before ++ [line]).map indentation)) :
    ∃ count, ((alone mode colons first).withTail (followed before)).drain.1
        = ((alone mode colons first).withTail (followed (before ++ line :: after))).drain.1
          ++ (List.replicate count (.bare .outdent (before.length + 1 : Nat))
            ++ [.bare .eos (before.length + 1 : Nat)])
      ∧ ((alone mode colons first).withTail (followed (before ++ line :: after))).drain.2.1
        = some ⟨.mixedIndentation, before.length + 2⟩ := by
  obtain ⟨tokens, last, hcarries, hlast, hnumber, -⟩ :=
    carries_source hfirst hends hbefore hstyle
  have huntouched : ∀ tail, ((alone mode colons first).withTail tail).Untouched :=
    fun _ => ⟨rfl, rfl, nofun⟩
  have hshort := hcarries.passes.drain (huntouched _)
  rw [drain_end (hcarries.passes.untouched (huntouched _)) hlast.atText.input
    hlast.atText.pending] at hshort
  -- the line that is refused stands behind the same tokens
  have hbreak := hlast.atBreak hline
  have hgoes : ¬ (last.withTail ('\n' :: line)).GoesOn line := by
    rw [hlast.goesOn_iff]
    rwa [List.map_append] at hmixed
  obtain ⟨stopped, hnext⟩ := hbreak.next_mixed hgoes
  have hstops : ∃ stopped, (last.withTail (followed (line :: after))).next
      = (.error ⟨.mixedIndentation, last.line + 1⟩, stopped) := by
    have hclosed : ¬ (last.withTail ('\n' :: line)).next.Unclosed := by
      rw [hnext]
      rintro ⟨fault, hfault, hcause⟩
      obtain rfl := Except.error.inj hfault
      exact nomatch hcause
    have htail := (next_withTail (endsLine_followed after) fun _ => hbreak.not_blank).resolve_left
      hclosed
    rw [hnext, withTail_withTail] at htail
    exact ⟨_, htail⟩
  obtain ⟨stopped, hstopped⟩ := hstops
  have hlong := (hcarries.withTail (endsLine_followed (line :: after))).passes
  rw [withTail_withTail, ← followed_append] at hlong
  have hdrain := hlong.drain (huntouched _)
  rw [drain_of_error (hlong.untouched (huntouched _)) hstopped] at hdrain
  refine ⟨last.levels.length, ?_, ?_⟩
  · rw [hshort, hdrain, List.append_nil, ← hnumber]
    rfl
  · rw [hdrain, hnumber]

/-- **Mixed indentation is refused exactly where it starts**, however lines are read: at the first
    line that does not go on in the style of those before it, behind all that these say. -/
theorem mixedIndentation_iff (mode : Mode) (colons : Bool)
    (hlines : Text.lines (normalizeNewlines source.toList) = first :: lines)
    (hlists : '(' ∉ source.toList) (hfilled : ∀ line ∈ lines, content line ≠ []) :
    ((∃ fault, (atStart source colons mode).drain.2.1 = some fault)
        ↔ Mixed (lines.map indentation))
      ∧ ∀ before line after, lines = before ++ line :: after →
        InOneStyle (before.map indentation) →
        ¬ InOneStyle ((before ++ [line]).map indentation) →
        (atStart source colons mode).drain.2.1 = some ⟨.mixedIndentation, before.length + 2⟩
          ∧ ∃ count, (atStart (String.ofList (first ++ followed before)) colons mode).drain.1
              = (atStart source colons mode).drain.1
                ++ (List.replicate count (.bare .outdent (before.length + 1 : Nat))
                  ++ [.bare .eos (before.length + 1 : Nat)]) := by
  obtain ⟨hstart, hone⟩ := atStart_eq hlines mode colons
  have hclosed : ∀ line ∈ first :: lines, '(' ∉ line := fun line hmem hlist =>
    hlists (mem_of_mem_normalizeNewlines (by decide) ((hone line hmem).2 _ hlist))
  have hfirstLine : '\n' ∉ first := (hone first (.head _)).1
  have hends : (alone mode colons first).drain.2.1 = none :=
    ends_alone hfirstLine (hclosed first (.head _))
  have hreadable : ∀ line ∈ lines, Readable mode colons line := fun line hmem =>
    readable_of_filled (hone line (.tail _ hmem)).1 (hfilled line hmem)
      (hclosed line (.tail _ hmem))
  have hmargins : ∀ margin ∈ lines.map indentation, ∀ c ∈ margin, isIndentation c = true :=
    List.forall_mem_map.mpr fun _ _ _ hc => isIndentation_of_mem_indentation hc
  have hrefused : ∀ before line after, lines = before ++ line :: after →
      InOneStyle (before.map indentation) → ¬ InOneStyle ((before ++ [line]).map indentation) →
      (atStart source colons mode).drain.2.1 = some ⟨.mixedIndentation, before.length + 2⟩
        ∧ ∃ count, (atStart (String.ofList (first ++ followed before)) colons mode).drain.1
            = (atStart source colons mode).drain.1
              ++ (List.replicate count (.bare .outdent (before.length + 1 : Nat))
                ++ [.bare .eos (before.length + 1 : Nat)]) := by
    rintro before line after rfl hbefore hmixed
    obtain ⟨count, htokens, hfault⟩ := drain_of_mixed hfirstLine hends
      (fun other hmem => hreadable other (List.mem_append_left _ hmem))
      (hreadable line (by simp)) hbefore hmixed
    rw [hstart]
    refine ⟨hfault, count, ?_⟩
    have hreturn : '\r' ∉ first ++ followed before := by
      have htext : normalizeNewlines source.toList = first ++ followed (before ++ line :: after) :=
        congrArg Lexer.input hstart
      have hnone := htext ▸ not_mem_normalizeNewlines source.toList
      rw [followed_append, ← List.append_assoc] at hnone
      exact fun hmem => hnone (List.mem_append_left _ hmem)
    rw [← htokens, atStart, ofSource_eq_alone hreturn]
    rfl
  refine ⟨⟨?_, fun hmixed => ?_⟩, hrefused⟩
  · rintro ⟨fault, hfault⟩
    rw [mixed_iff hmargins]
    intro hstyle
    obtain ⟨tokens, last, hcarries, hlast, -⟩ :=
      carries_source hfirstLine hends hreadable hstyle
    rw [← hstart] at hcarries
    have huntouched : (atStart source colons mode).Untouched := ⟨rfl, rfl, nofun⟩
    rw [hcarries.passes.drain huntouched,
      drain_end (hcarries.passes.untouched huntouched) hlast.atText.input hlast.atText.pending]
      at hfault
    exact nomatch hfault
  · obtain ⟨before, line, after, hsplit, hbefore, hline⟩ :=
      exists_first_mixed ((mixed_iff hmargins).mp hmixed)
    exact ⟨_, (hrefused before line after hsplit hbefore hline).1⟩

/-- A list that goes on with tabs where it began with spaces. -/
theorem mixedIndentation_tabbedItem :
    Text.lines (normalizeNewlines "ul\n  li\n\tli".toList)
        = ["ul".toList, "  li".toList, "\tli".toList]
      ∧ '(' ∉ "ul\n  li\n\tli".toList
      ∧ (∃ fault, (atStart "ul\n  li\n\tli" false .markup).drain.2.1 = some fault)
      ∧ (atStart "ul\n  li\n\tli" false .markup).drain.2.1 = some ⟨.mixedIndentation, 3⟩ := by
  have hlines : Text.lines (normalizeNewlines "ul\n  li\n\tli".toList)
      = ["ul".toList, "  li".toList, "\tli".toList] := by decide
  have hlists : '(' ∉ "ul\n  li\n\tli".toList := by decide
  obtain ⟨hiff, hplace⟩ := mixedIndentation_iff .markup false hlines hlists (by decide)
  exact ⟨hlines, hlists, hiff.mpr (by decide),
    (hplace ["  li".toList] "\tli".toList [] rfl (by decide) (by decide)).1⟩

end Lexer

end Stencil
