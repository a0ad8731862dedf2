import Stencil.Proofs.Text.Lines
import Stencil.Text.Literal

/-! # String literals — what an escaped text is read as

    The host language reads the body of a single-quoted literal from left to
    right (`readLiteral`), and stops where a quote is not escaped.  What
    `escapeLiteral` writes is read as the text itself, with its line endings as
    line feeds, and up to its last character: a quote behind it closes the literal
    and no character of it does (`readLiteral_escapeLiteral`).

    Escaping goes over the text once.  Going over it once for each character that
    is replaced gives the same, although later passes see what earlier ones have
    written (`escapeLiteral_eq_escapeInPasses`). -/

namespace Stencil.Text

variable {text rest : List Char} {c : Char}

/-! ## Reading -/

/-- Reads the body of a single-quoted literal: the text up to the first quote that is not escaped,
    or up to the end, and what is left there.  A raw line break is refused, and so is a backslash
    that escapes nothing or anything else than a backslash, a quote or `n`. -/
def readLiteral : List Char → Option (List Char × List Char)
  | [] => some ([], [])
  | '\'' :: rest => some ([], '\'' :: rest)
  | '\\' :: '\\' :: rest => (readLiteral rest).map fun read => ('\\' :: read.1, read.2)
  | '\\' :: '\'' :: rest => (readLiteral rest).map fun read => ('\'' :: read.1, read.2)
  | '\\' :: 'n' :: rest => (readLiteral rest).map fun read => ('\n' :: read.1, read.2)
  | c :: rest =>
      if c = '\\' ∨ c = '\r' ∨ c = '\n' then none
      else (readLiteral rest).map fun read => (c :: read.1, read.2)

/-- The form of a character is read as that character. -/
theorem readLiteral_escapeChar (hc : c ≠ '\r') (rest : List Char) :
    readLiteral (escapeChar c ++ rest)
      = (readLiteral rest).map fun read => (c :: read.1, read.2) := by
  by_cases hbackslash : c = '\\'
  · subst hbackslash
    rfl
  by_cases hfeed : c = '\n'
  · subst hfeed
    rfl
  by_cases hquote : c = '\''
  · subst hquote
    rfl
  have hform : escapeChar c = [c] := by simp [escapeChar, hbackslash, hfeed, hquote]
  have hplain : ¬ (c = '\\' ∨ c = '\r' ∨ c = '\n') := by simp [hbackslash, hc, hfeed]
  rw [hform, List.singleton_append, readLiteral.eq_6 c rest hquote
    (fun _ he _ => hbackslash he) (fun _ he _ => hbackslash he) (fun _ he _ => hbackslash he),
    if_neg hplain]

/-- The forms of characters are read one by one. -/
theorem readLiteral_flatMap (hreturn : '\r' ∉ text) (rest : List Char) :
    readLiteral (text.flatMap escapeChar ++ rest)
      = (readLiteral rest).map fun read => (text ++ read.1, read.2) := by
  induction text with
  | nil => exact Option.map_id'.symm
  | cons c text ih =>
      rw [List.mem_cons, not_or] at hreturn
      rw [List.flatMap_cons, List.append_assoc, readLiteral_escapeChar (Ne.symm hreturn.1),
        ih hreturn.2, Option.map_map]
      rfl

/-- An escaped text is read up to its end, and then what stands behind it. -/
theorem readLiteral_escaped (text rest : List Char) :
    readLiteral (escapeLiteral text ++ rest)
      = (readLiteral rest).map fun read => (normalizeNewlines text ++ read.1, read.2) :=
  readLiteral_flatMap (not_mem_normalizeNewlines text) rest

/-! ## Passes -/

/-- Writes something else for every occurrence of a character. -/
def replaceChar (old : Char) (new text : List Char) : List Char :=
  text.flatMap fun c => if c = old then new else [c]

/-- The body of the single-quoted literal that stands for a text, in one pass each for the
    backslashes, the line endings, the line feeds that these have become, and the quotes. -/
def escapeInPasses (text : List Char) : List Char :=
  replaceChar '\'' ['\\', '\''] <| replaceChar '\n' ['\\', 'n'] <|
    normalizeNewlines <| replaceChar '\\' ['\\', '\\'] text

theorem replaceChar_cons (old : Char) (new : List Char) (c : Char) (text : List Char) :
    replaceChar old new (c :: text)
      = (if c = old then new else [c]) ++ replaceChar old new text :=
  List.flatMap_cons

/-- Doubling backslashes neither makes nor breaks a line ending. -/
theorem normalizeNewlines_replaceChar (text : List Char) :
    normalizeNewlines (replaceChar '\\' ['\\', '\\'] text)
      = replaceChar '\\' ['\\', '\\'] (normalizeNewlines text) := by
  fun_induction normalizeNewlines text with
  | case1 => rfl
  | case2 rest ih =>
      simp only [replaceChar_cons, Char.reduceEq, if_false, List.singleton_append,
        normalizeNewlines, ih]
  | case3 rest hnext ih =>
      have hnext' : ∀ more, replaceChar '\\' ['\\', '\\'] rest = '\n' :: more → False := by
        intro more hmore
        cases rest with
        | nil => cases hmore
        | cons d rest =>
            rw [replaceChar_cons] at hmore
            split at hmore
            · cases hmore
            · exact hnext rest (by rw [(List.cons.inj hmore).1])
      rw [replaceChar_cons, if_neg (by decide), List.singleton_append,
        normalizeNewlines.eq_3 _ hnext', ih, replaceChar_cons, if_neg (by decide),
        List.singleton_append]
  | case4 c rest hbreak hc ih =>
      have hplain : ∀ (d : Char) (more : List Char), d ≠ '\r' →
          normalizeNewlines (d :: more) = d :: normalizeNewlines more :=
        fun d more hd => normalizeNewlines.eq_4 d more (fun _ he _ => hd he) hd
      rw [replaceChar_cons, replaceChar_cons, ← ih]
      split
      · rw [List.cons_append, List.singleton_append, hplain _ _ (by decide),
          hplain _ _ (by decide)]
        rfl
      · rw [List.singleton_append, hplain _ _ hc, List.singleton_append]

/-- What three passes write for one character. -/
theorem replaceChar_three (c : Char) :
    replaceChar '\'' ['\\', '\''] (replaceChar '\n' ['\\', 'n']
        (if c = '\\' then ['\\', '\\'] else [c])) = escapeChar c := by
  by_cases hbackslash : c = '\\'
  · subst hbackslash
    rfl
  by_cases hfeed : c = '\n'
  · subst hfeed
    rfl
  rw [if_neg hbackslash, replaceChar_cons, if_neg hfeed, List.singleton_append, replaceChar_cons]
  by_cases hquote : c = '\''
  · subst hquote
    rfl
  · simp [escapeChar, replaceChar, hbackslash, hfeed, hquote]

/-- **One pass is enough**: a later pass finds nothing to replace in what an earlier one has
    written. -/
theorem escapeLiteral_eq_escapeInPasses (text : List Char) :
    escapeLiteral text = escapeInPasses text := by
  have happend : ∀ (old : Char) (new first second : List Char), replaceChar old new
      (first ++ second) = replaceChar old new first ++ replaceChar old new second :=
    fun _ _ _ _ => List.flatMap_append
  rw [escapeInPasses, normalizeNewlines_replaceChar, escapeLiteral]
  induction normalizeNewlines text with
  | nil => rfl
  | cons c text ih =>
      rw [List.flatMap_cons, ih, replaceChar_cons '\\', happend, happend, replaceChar_three]

/-! ## Back again -/

/-- **An escaped text is read back, and does not end its literal.**  It is read to its end as the
    text with line feeds for its line endings, and the quote behind it is the first one that closes
    the literal.  So texts have one escaped form only if they are equal up to line endings; and all
    this holds of the text that is escaped in one pass for each character. -/
theorem readLiteral_escapeLiteral (text other rest : List Char) :
    escapeLiteral text = escapeInPasses text
      ∧ readLiteral (escapeLiteral text) = some (normalizeNewlines text, [])
      ∧ readLiteral (escapeLiteral text ++ '\'' :: rest)
        = some (normalizeNewlines text, '\'' :: rest)
      ∧ (escapeLiteral text = escapeLiteral other
        ↔ normalizeNewlines text = normalizeNewlines other) := by
  have hread : ∀ text, readLiteral (escapeLiteral text) = some (normalizeNewlines text, []) := by
    intro text
    have hend := readLiteral_escaped text []
    rwa [List.append_nil, readLiteral, Option.map_some, List.append_nil] at hend
  refine ⟨escapeLiteral_eq_escapeInPasses text, hread text, ?_, fun hsame => ?_, fun hsame => ?_⟩
  · rw [readLiteral_escaped, readLiteral, Option.map_some, List.append_nil]
  · have htexts := (hread text).symm.trans ((congrArg readLiteral hsame).trans (hread other))
    exact congrArg Prod.fst (Option.some.inj htexts)
  · rw [escapeLiteral, hsame, escapeLiteral]

/-- Backslashes in front of a quote, of an `n` and of a line ending, and one at the end. -/
example : readLiteral (escapeLiteral "\\'\\n\\\r\n\\".toList)
    = some ("\\'\\n\\\n\\".toList, []) := by
  decide

end Stencil.Text
