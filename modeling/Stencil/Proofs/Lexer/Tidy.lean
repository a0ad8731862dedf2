import Stencil.Proofs.Lexer.RawLines

/-! # Tidy lexers — how far a reader of statements has looked

    A reader of statements looks past line breaks, and no further than the first
    token behind them.  So in a tidy lexer all tokens that were looked at but the
    last one are line breaks, and the text is where the last one left it
    (`Behind`): behind an indent that is the first line of a body, with nothing
    pending, and behind an attribute list nothing is pending either.

    Taking a token and looking at the next one keep a lexer tidy (`Tidy.advance`,
    `Tidy.peekAt`).  A tidy lexer that has looked at nothing but an indent, or at
    nothing and has nothing pending, may be switched (`Ready`): the lines of the
    body are still in the text. -/

namespace Stencil.Lexer

variable {lexer after : Lexer} {token : Token} {deferred : List Token} {text : List Char}
  {width offset : Nat}

/-! ## Behind a token -/

/-- What a lexer knows at the first line of a body of a width, behind the indent. -/
structure Entered (width : Nat) (lexer : Lexer) : Prop where
  pending : lexer.pending = []
  levels : ∃ outer, lexer.levels = width :: outer
  lock : ∃ style line, lexer.lock = some ⟨style, line⟩
  begins : Begins lexer.input

/-- What a lexer knows behind the token that it has read last. -/
structure Behind (token : Token) (lexer : Lexer) : Prop where
  indent : token.kind = .indent → ∃ width, token.lexeme = .indent width ∧ lexer.Entered width
  attrs : token.kind = .attrs → lexer.pending = []

/-- The queues of the reader, the line and the mode do not matter. -/
theorem Behind.congr (h : Behind token lexer) (hinput : after.input = lexer.input)
    (hpending : after.pending = lexer.pending) (hlevels : after.levels = lexer.levels)
    (hlock : after.lock = lexer.lock) : Behind token after := by
  refine ⟨fun hkind => ?_, fun hkind => hpending.trans (h.attrs hkind)⟩
  obtain ⟨width, hlexeme, hentered⟩ := h.indent hkind
  exact ⟨width, hlexeme, hpending.trans hentered.pending, hlevels ▸ hentered.levels,
    hlock ▸ hentered.lock, hinput ▸ hentered.begins⟩

/-- Behind a token of any other kind there is nothing to know. -/
theorem behind_of_ne (hindent : token.kind ≠ .indent) (hattrs : token.kind ≠ .attrs) :
    Behind token lexer :=
  ⟨fun hkind => absurd hkind hindent, fun hkind => absurd hkind hattrs⟩

theorem LineBreak.behind (h : lexer.LineBreak text token after) (hpending : lexer.pending = []) :
    Behind token after := by
  obtain ⟨⟨followers, henters, hfollowers⟩, -, -, hlock⟩ := h
  rw [hpending, List.nil_append] at hfollowers
  generalize hlevels : after.levels = levels at henters
  cases henters with
  | blank _ hkind => exact behind_of_ne (by simp [hkind]) (by simp [hkind])
  | sibling _ _ hkind => exact behind_of_ne (by simp [hkind]) (by simp [hkind])
  | shallower _ _ hkind => exact behind_of_ne (by simp [hkind]) (by simp [hkind])
  | deeper hbegins hwider hlexeme =>
      refine ⟨fun _ => ⟨_, hlexeme, hfollowers, ⟨_, hlevels⟩, ?_, hbegins⟩, fun _ => hfollowers⟩
      -- a line that is wider than a level settles the style
      have hne : widthIn (styleFor lexer.lock text) text ≠ 0 := Nat.ne_zero_of_lt hwider
      rw [hlock]
      dsimp only [enterLine]
      rw [if_neg hne]
      rcases lexer.lock with - | ⟨style, line⟩
      · exact ⟨_, _, rfl⟩
      · exact ⟨style, line, rfl⟩

/-- What a step leads to: it keeps the mode, and stands behind its token. -/
structure Steps (lexer : Lexer) (token : Token) (after : Lexer) : Prop where
  mode : after.mode = lexer.mode
  behind : Behind token after

theorem scanLine_steps (hpending : lexer.pending = []) (h : lexer.scanLine = (.ok token, after)) :
    lexer.Steps token after := by
  unfold scanLine at h
  split at h
  · unfold readEnd at h
    split at h
    · cases h
      exact ⟨rfl, behind_of_ne nofun nofun⟩
    · cases h
      exact ⟨rfl, behind_of_ne nofun nofun⟩
  · have hbreak := readLineBreak_lineBreak h
    exact ⟨hbreak.mode, hbreak.behind hpending⟩
  · split at h
    · cases h
      exact ⟨rfl, behind_of_ne nofun nofun⟩
    · split at h
      · unfold readAttributes at h
        split at h
        · cases h
        · cases h
          exact ⟨rfl, nofun, fun _ => hpending⟩
      · unfold readForm at h
        split at h
        · cases h
        · next found hfound =>
            cases h
            have hformed := Form.first?_formed hfound
            refine ⟨rfl, behind_of_ne (fun hkind => ?_) fun hkind => ?_⟩
            · exact nomatch (congrArg TokenKind.isFormed hkind).symm.trans hformed
            · exact nomatch (congrArg TokenKind.isFormed hkind).symm.trans hformed

theorem next_steps (hfollows : ∀ t ∈ lexer.pending, t.Follows)
    (h : lexer.next = (.ok token, after)) : lexer.Steps token after := by
  unfold next at h
  split at h
  · next waiting pending hpending =>
      cases h
      rw [hpending] at hfollows
      -- an outdent or a colon is no indent and no attribute list
      refine ⟨rfl, ?_⟩
      rcases hfollows _ List.mem_cons_self with hkind | hkind
      · exact behind_of_ne (by simp [hkind]) (by simp [hkind])
      · exact behind_of_ne (by simp [hkind]) (by simp [hkind])
  · next hpending =>
      rcases scan_cases lexer with hscan | ⟨rest, line, -, hscan⟩ | ⟨rest, line, -, hscan⟩
      · exact scanLine_steps hpending (hscan.symm.trans h)
      · rw [hscan] at h
        cases h
        exact ⟨rfl, behind_of_ne nofun nofun⟩
      · have hbreak := readLineBreak_lineBreak (hscan.symm.trans h)
        exact ⟨hbreak.mode, hbreak.behind hpending⟩

/-! ## Tidy lexers -/

/-- A lexer between statements, with these tokens put in. -/
structure Tidy (deferred : List Token) (lexer : Lexer) : Prop where
  mode : lexer.mode = .markup
  deferred : lexer.deferred = deferred
  follows : ∀ t ∈ lexer.pending, t.Follows
  breaks : ∀ t ∈ lexer.stash.dropLast, t.kind = .newline
  last : ∀ t ∈ lexer.stash.getLast?, Behind t lexer

theorem tidy_ofSource (source : String) (colons : Bool) : Tidy [] (ofSource source colons) :=
  ⟨rfl, rfl, nofun, nofun, nofun⟩

/-- A token that was looked at, and is no line break, is the last one. -/
theorem Tidy.stash_of_head (h : Tidy deferred lexer) (hhead : lexer.stash.head? = some token)
    (hkind : token.kind ≠ .newline) : lexer.stash = [token] ∧ Behind token lexer := by
  rcases hstash : lexer.stash with - | ⟨first, others⟩
  · rw [hstash] at hhead
    exact nomatch hhead
  · rw [hstash] at hhead
    obtain rfl : first = token := Option.some.inj hhead
    rcases others with - | ⟨second, others⟩
    · exact ⟨rfl, h.last first (by rw [hstash]; rfl)⟩
    · have hbreak := h.breaks first (by rw [hstash]; exact List.mem_cons_self)
      exact absurd hbreak hkind

/-- **Taking a token** keeps a lexer tidy; behind one that is no line break nothing else was looked
    at. -/
theorem Tidy.advance (h : Tidy [] lexer) (hadvance : lexer.advance = (.ok token, after)) :
    Tidy [] after ∧ (token.kind ≠ .newline → after.stash = [] ∧ Behind token after) := by
  unfold Lexer.advance at hadvance
  rw [h.deferred] at hadvance
  dsimp only at hadvance
  split at hadvance
  · next first stash hstash =>
      cases hadvance
      have hbreaks := h.breaks
      have hlast := h.last
      rw [hstash] at hbreaks hlast
      constructor
      · refine ⟨h.mode, rfl, h.follows, fun t ht => ?_, fun t ht => ?_⟩
        · refine hbreaks t ?_
          rcases stash with - | ⟨second, stash⟩
          · exact nomatch ht
          · exact List.mem_cons_of_mem _ ht
        · rcases stash with - | ⟨second, stash⟩
          · exact nomatch ht
          · exact (hlast t ht).congr rfl rfl rfl rfl
      · intro hkind
        obtain ⟨hone, hbehind⟩ := h.stash_of_head (by rw [hstash]; rfl) hkind
        rw [hstash] at hone
        exact ⟨(List.cons.inj hone).2, hbehind.congr rfl rfl rfl rfl⟩
  · next hstash =>
      obtain ⟨hdeferred, hsame⟩ := next_queues hadvance
      have hsteps := next_steps h.follows hadvance
      have hempty : after.stash = [] := hsame.trans hstash
      refine ⟨⟨hsteps.mode.trans h.mode, hdeferred.trans h.deferred,
        next_follows h.follows hadvance, ?_, ?_⟩, fun _ => ⟨hempty, hsteps.behind⟩⟩
      · rw [hempty]
        exact nofun
      · rw [hempty]
        exact nofun

/-- The token that was looked at is the one that is taken. -/
theorem Tidy.advance_head (h : Tidy [] lexer) (hhead : lexer.stash.head? = some token)
    {taken : Token} (hadvance : lexer.advance = (.ok taken, after)) : taken = token := by
  unfold Lexer.advance at hadvance
  rw [h.deferred] at hadvance
  dsimp only at hadvance
  split at hadvance
  · next first stash hstash =>
      cases hadvance
      rw [hstash] at hhead
      exact Option.some.inj hhead
  · next hstash =>
      rw [hstash] at hhead
      exact nomatch hhead

/-- A token that was put in is taken first. -/
theorem Tidy.advance_deferred (h : Tidy (token :: deferred) lexer) {taken : Token}
    (hadvance : lexer.advance = (.ok taken, after)) : taken = token ∧ Tidy deferred after := by
  unfold Lexer.advance at hadvance
  rw [h.deferred] at hadvance
  cases hadvance
  exact ⟨rfl, h.mode, rfl, h.follows, h.breaks, fun t ht => (h.last t ht).congr rfl rfl rfl rfl⟩

/-- **A look past line breaks** keeps a lexer tidy. -/
theorem Tidy.peekAt (h : Tidy [] lexer) (hle : offset ≤ lexer.stash.length)
    (hbreaks : offset = lexer.stash.length → ∀ t ∈ lexer.stash, t.kind = .newline)
    (hpeek : lexer.peekAt offset = (.ok token, after)) :
    Tidy [] after ∧ after.stash[offset]? = some token := by
  have hqueue : lexer.deferred ++ lexer.stash = lexer.stash := by rw [h.deferred, List.nil_append]
  rcases peekAt_eq_ok hpeek (by rw [hqueue]; exact hle) with
    ⟨htoken, rfl⟩ | ⟨hoffset, scanned, hnext, rfl⟩
  · exact ⟨h, hqueue ▸ htoken⟩
  · rw [hqueue] at hoffset
    obtain ⟨hdeferred, -⟩ := next_queues hnext
    have hsteps := next_steps h.follows hnext
    refine ⟨⟨hsteps.mode.trans h.mode, hdeferred.trans h.deferred,
      fun t ht => next_follows h.follows hnext t ht, ?_, ?_⟩, ?_⟩
    · show ∀ t ∈ (lexer.stash ++ [token]).dropLast, t.kind = .newline
      rw [List.dropLast_concat]
      exact hbreaks hoffset
    · show ∀ t ∈ (lexer.stash ++ [token]).getLast?, Behind t _
      rw [List.getLast?_concat]
      rintro _ ⟨rfl⟩
      exact hsteps.behind.congr rfl rfl rfl rfl
    · show (lexer.stash ++ [token])[offset]? = some token
      rw [hoffset, List.getElem?_concat_length]

/-- A look at a token that was put in. -/
theorem Tidy.peek_deferred (h : Tidy (token :: deferred) lexer) {taken : Token}
    (hpeek : lexer.peekAt 0 = (.ok taken, after)) : taken = token ∧ after = lexer := by
  rcases peekAt_eq_ok hpeek (Nat.zero_le _) with ⟨htoken, rfl⟩ | ⟨hnone, -⟩
  · rw [h.deferred] at htoken
    exact ⟨(Option.some.inj htoken).symm, rfl⟩
  · rw [h.deferred] at hnone
    exact nomatch hnone

/-- A token is put in behind those that were. -/
theorem Tidy.defer (h : Tidy deferred lexer) (token : Token) :
    Tidy (deferred ++ [token]) (lexer.defer token) :=
  ⟨h.mode, congrArg (· ++ [token]) h.deferred, h.follows, h.breaks,
    fun t ht => (h.last t ht).congr rfl rfl rfl rfl⟩

/-! ## Ready to be switched -/

/-- A lexer from which a raw body may be read: nothing waits but, at most, one token that was looked
    at. -/
structure Ready (lexer : Lexer) : Prop where
  mode : lexer.mode = .markup
  deferred : lexer.deferred = []
  waiting : lexer.stash = [] ∧ lexer.pending = []
    ∨ ∃ token, lexer.stash = [token] ∧ Behind token lexer

/-- A tidy lexer may be switched when one token was looked at. -/
theorem Tidy.ready (h : Tidy [] lexer) (hstash : lexer.stash = [token]) : Ready lexer :=
  ⟨h.mode, h.deferred, .inr ⟨token, hstash, h.last token (by rw [hstash]; rfl)⟩⟩

/-- A tidy lexer may be switched behind an attribute list. -/
theorem Tidy.ready_of_attrs (h : Tidy [] lexer) (hstash : lexer.stash = [])
    (hbehind : Behind token lexer) (hkind : token.kind = .attrs) : Ready lexer :=
  ⟨h.mode, h.deferred, .inl ⟨hstash, hbehind.attrs hkind⟩⟩

end Stencil.Lexer
