import SolNorm.Proofs.Text.Pieces

/-!
The layout of a text: what its string literals and its comments are, said without reading the text
from left to right. Every text has exactly one layout, and it is the one by which comments are
removed. What is left has the layout of the text with line breaks in the place of comments, so there
is nothing to remove in it.
-/

namespace SolNorm.Comment

/-- Characters behind a quote that do not stop the string. A backslash takes the next character along,
whatever it is. -/
inductive Inside (quote : Char) : List Char → Prop where
  | nil : Inside quote []
  | plain {c : Char} {cs : List Char} (ordinary : c ≠ quote ∧ c ≠ '\n' ∧ c ≠ '\\')
      (rest : Inside quote cs) : Inside quote (c :: cs)
  | escaped {c : Char} {cs : List Char} (rest : Inside quote cs) : Inside quote ('\\' :: c :: cs)

/-- What stands at a place in a text, where some characters follow. -/
inductive Piece.Stands : Piece → List Char → Prop where
  /-- A character that is no quote and does not begin the mark of a comment. -/
  | plain {c : Char} {after : List Char} (noQuote : ¬ (c = '"' ∨ c = '\''))
      (noMark : c = '/' → after.head? ≠ some '/' ∧ after.head? ≠ some '*') :
      Stands (.plain c) after
  /-- A string up to the quote that matches. -/
  | closed {quote : Char} {cs after : List Char} (isQuote : quote = '"' ∨ quote = '\'')
      (inside : Inside quote cs) : Stands (.literal (quote :: (cs ++ [quote]))) after
  /-- A string up to the end of the line. -/
  | broken {quote : Char} {cs after : List Char} (isQuote : quote = '"' ∨ quote = '\'')
      (inside : Inside quote cs) : Stands (.literal (quote :: cs)) ('\n' :: after)
  /-- A string up to the end of the text, where a backslash may be left over. -/
  | ended {quote : Char} {cs left : List Char} (isQuote : quote = '"' ∨ quote = '\'')
      (inside : Inside quote cs) (isLeft : left = [] ∨ left = ['\\']) :
      Stands (.literal (quote :: (cs ++ left))) []
  /-- A line comment up to the end of the line or of the text. -/
  | line {cs after : List Char} (inside : '\n' ∉ cs) (stop : after = [] ∨ after.head? = some '\n') :
      Stands (.line ('/' :: '/' :: cs)) after
  /-- A block comment up to the first mark that closes it. -/
  | block {cs after : List Char} (inside : ¬ ['*', '/'] <:+: cs ++ ['*']) :
      Stands (.block ('/' :: '*' :: (cs ++ ['*', '/']))) after
  /-- A block comment that nothing closes. -/
  | unclosed {cs : List Char} (inside : ¬ ['*', '/'] <:+: cs) :
      Stands (.unclosed ('/' :: '*' :: cs)) []

/-- The pieces that a text is made of. -/
inductive Layout : List Char → List Piece → Prop where
  | nil : Layout [] []
  | cons {p : Piece} {after : List Char} {ps : List Piece} (first : p.Stands after)
      (rest : Layout after ps) : Layout (p.text ++ after) (p :: ps)

section Cut

variable {quote c : Char} {held cs rest : List Char}

theorem cut_line_stop :
    cut (.line held) ('\n' :: rest) = .line held :: cut .code ('\n' :: rest) := by
  rw [cut_break, cut, if_pos rfl]

/-- Inside a literal everything up to the quote belongs to it. -/
theorem cut_inside (h : Inside quote cs) (held rest : List Char) :
    cut (.quoted quote held) (cs ++ rest) = cut (.quoted quote (held ++ cs)) rest := by
  induction h generalizing held with
  | nil => simp
  | plain ordinary _ ih =>
      rw [List.cons_append, cut, if_neg ordinary.1, if_neg ordinary.2.1, ih, List.append_assoc]
      · rfl
      · exact fun _ _ hSlash _ => ordinary.2.2 hSlash
  | escaped _ ih =>
      rw [List.cons_append, List.cons_append, cut, ih, List.append_assoc]
      rfl

/-- A comment on one line goes up to the line break. -/
theorem cut_line (h : '\n' ∉ cs) (held rest : List Char) :
    cut (.line held) (cs ++ rest) = cut (.line (held ++ cs)) rest := by
  induction cs generalizing held with
  | nil => simp
  | cons c cs ih =>
      rw [List.mem_cons, not_or] at h
      rw [List.cons_append, cut, if_neg (Ne.symm h.1), ih h.2, List.append_assoc]
      rfl

/-- A comment goes on where no mark closes it. -/
theorem cut_block_step (h : ¬ ['*', '/'] <+: c :: cs) :
    cut (.block held) (c :: cs) = cut (.block (held ++ [c])) cs := by
  rw [cut]
  rintro rest rfl rfl
  exact h ⟨rest, rfl⟩

/-- Whether a mark closes a comment is seen from two characters. -/
theorem mark_prefix_iff :
    ['*', '/'] <+: c :: (cs ++ '*' :: rest) ↔ ['*', '/'] <+: c :: (cs ++ ['*']) := by
  cases cs <;> simp [List.cons_prefix_cons]

/-- A block comment goes up to the first mark that closes it. -/
theorem cut_block (h : ¬ ['*', '/'] <:+: cs ++ ['*']) (held rest : List Char) :
    cut (.block held) (cs ++ '*' :: '/' :: rest) =
      .block (held ++ cs ++ ['*', '/']) :: cut .code rest := by
  induction cs generalizing held with
  | nil =>
      rw [List.nil_append, cut, List.append_nil]
  | cons c cs ih =>
      rw [List.cons_append, List.infix_cons_iff, not_or] at h
      rw [List.cons_append, cut_block_step (mark_prefix_iff.not.mpr h.1), ih h.2]
      simp

/-- A block comment that is not closed goes up to the end. -/
theorem cut_unclosed (h : ¬ ['*', '/'] <:+: cs) (held : List Char) :
    cut (.block held) cs = [.unclosed (held ++ cs)] := by
  induction cs generalizing held with
  | nil => simp [cut]
  | cons c cs ih =>
      rw [List.infix_cons_iff, not_or] at h
      rw [cut_block_step h.1, ih h.2]
      simp

/-- The scan finds a piece where it stands. -/
theorem cut_of_stands {p : Piece} {after : List Char} (h : p.Stands after) :
    cut .code (p.text ++ after) = p :: cut .code after := by
  cases h with
  | plain noQuote noMark =>
      show cut .code (_ :: after) = _
      rw [cut, if_neg noQuote]
      · rintro rest rfl rfl
        exact (noMark rfl).1 rfl
      · rintro rest rfl rfl
        exact (noMark rfl).2 rfl
  | closed isQuote inside =>
      rename_i quote cs
      show cut .code (quote :: (cs ++ [quote] ++ after)) = _
      rw [cut_quote isQuote, List.append_assoc, cut_inside inside]
      exact cut_close isQuote
  | broken isQuote inside =>
      rename_i quote cs rest
      show cut .code (quote :: (cs ++ '\n' :: rest)) = _
      rw [cut_quote isQuote, cut_inside inside, cut_stop isQuote]
      rfl
  | ended isQuote inside isLeft =>
      rename_i quote cs left
      show cut .code (quote :: (cs ++ left ++ [])) = _
      have hPlain : '\\' ≠ quote := by rcases isQuote with rfl | rfl <;> decide
      rw [cut_quote isQuote, List.append_nil, cut_inside inside]
      rcases isLeft with rfl | rfl
      · simp [cut]
      · simp [cut, hPlain]
  | line inside stop =>
      rename_i cs
      show cut (.line ['/', '/']) (cs ++ after) = _
      rw [cut_line inside]
      rcases stop with rfl | hBreak
      · simp [cut]
      · obtain ⟨rest, rfl⟩ := List.head?_eq_some_iff.mp hBreak
        exact cut_line_stop
  | block inside =>
      rename_i cs
      show cut (.block ['/', '*']) (cs ++ ['*', '/'] ++ after) = _
      rw [List.append_assoc]
      exact cut_block inside _ after
  | unclosed inside =>
      rename_i cs
      show cut (.block ['/', '*']) (cs ++ []) = _
      rw [List.append_nil, cut_unclosed inside]
      simp [cut]

end Cut

/-- Behind a quote, a string goes on to a quote that matches, to a line break or to the end. -/
theorem exists_inside (quote : Char) : ∀ cs : List Char, ∃ inside rest, cs = inside ++ rest ∧
    Inside quote inside ∧
      (rest.head? = some quote ∨ rest.head? = some '\n' ∨ rest = [] ∨ rest = ['\\'])
  | [] => ⟨[], [], rfl, .nil, .inr (.inr (.inl rfl))⟩
  | c :: cs => by
      by_cases hQuote : c = quote
      · exact ⟨[], c :: cs, rfl, .nil, .inl (congrArg some hQuote)⟩
      by_cases hBreak : c = '\n'
      · exact ⟨[], c :: cs, rfl, .nil, .inr (.inl (congrArg some hBreak))⟩
      by_cases hSlash : c = '\\'
      · subst hSlash
        match cs with
        | [] => exact ⟨[], ['\\'], rfl, .nil, .inr (.inr (.inr rfl))⟩
        | d :: cs =>
            obtain ⟨inside, rest, rfl, hInside, hRest⟩ := exists_inside quote cs
            exact ⟨'\\' :: d :: inside, rest, rfl, .escaped hInside, hRest⟩
      · obtain ⟨inside, rest, rfl, hInside, hRest⟩ := exists_inside quote cs
        exact ⟨c :: inside, rest, rfl, .plain ⟨hQuote, hBreak, hSlash⟩ hInside, hRest⟩

/-- A block comment is closed by a first mark, or by none. -/
theorem exists_close (cs : List Char) :
    (¬ ['*', '/'] <:+: cs) ∨
      ∃ inside after, cs = inside ++ '*' :: '/' :: after ∧ ¬ ['*', '/'] <:+: inside ++ ['*'] := by
  induction cs with
  | nil => exact .inl (by simp)
  | cons c cs ih =>
      by_cases hMark : ['*', '/'] <+: c :: cs
      · obtain ⟨after, hAfter⟩ := hMark
        exact .inr ⟨[], after, hAfter.symm, by decide⟩
      · rcases ih with hNone | ⟨inside, after, rfl, hInside⟩
        · exact .inl (by rw [List.infix_cons_iff, not_or]; exact ⟨hMark, hNone⟩)
        · refine .inr ⟨c :: inside, after, rfl, ?_⟩
          rw [List.cons_append, List.infix_cons_iff, not_or]
          exact ⟨mark_prefix_iff.not.mp hMark, hInside⟩

theorem Piece.Stands.text_ne_nil {p : Piece} {after : List Char} (h : p.Stands after) :
    p.text ≠ [] := by
  cases h <;> exact List.cons_ne_nil _ _

/-- A line comment goes on to the first line break. -/
theorem stands_line (cs : List Char) :
    (Piece.line ('/' :: '/' :: cs.takeWhile (· ≠ '\n'))).Stands (cs.dropWhile (· ≠ '\n')) := by
  refine .line (fun h => ?_) ?_
  · simpa using List.mem_takeWhile_imp h
  · have hStop := List.head?_dropWhile_not (· ≠ '\n') cs
    cases hDrop : cs.dropWhile (· ≠ '\n') with
    | nil => exact .inl rfl
    | cons d rest =>
        rw [hDrop] at hStop
        exact .inr (by simpa using hStop)

/-- Something stands at every place of a text. -/
theorem exists_stands (c : Char) (cs : List Char) :
    ∃ (p : Piece) (after : List Char), p.Stands after ∧ c :: cs = p.text ++ after := by
  by_cases hQuote : c = '"' ∨ c = '\''
  · obtain ⟨inside, rest, rfl, hInside, hRest⟩ := exists_inside c cs
    rcases hRest with hClose | hBreak | hEnd
    · obtain ⟨after, rfl⟩ := List.head?_eq_some_iff.mp hClose
      exact ⟨_, after, .closed hQuote hInside, by simp [Piece.text]⟩
    · obtain ⟨after, rfl⟩ := List.head?_eq_some_iff.mp hBreak
      exact ⟨_, '\n' :: after, .broken hQuote hInside, rfl⟩
    · exact ⟨_, [], .ended hQuote hInside hEnd, by simp [Piece.text]⟩
  by_cases hLine : c = '/' ∧ cs.head? = some '/'
  · obtain ⟨rfl, hHead⟩ := hLine
    obtain ⟨cs, rfl⟩ := List.head?_eq_some_iff.mp hHead
    exact ⟨_, _, stands_line cs, by simp [Piece.text]⟩
  by_cases hBlock : c = '/' ∧ cs.head? = some '*'
  · obtain ⟨rfl, hHead⟩ := hBlock
    obtain ⟨cs, rfl⟩ := List.head?_eq_some_iff.mp hHead
    rcases exists_close cs with hNone | ⟨inside, after, rfl, hInside⟩
    · exact ⟨_, [], .unclosed hNone, by simp [Piece.text]⟩
    · exact ⟨_, after, .block hInside, by simp [Piece.text]⟩
  · have hPlain : c = '/' → cs.head? ≠ some '/' ∧ cs.head? ≠ some '*' := fun hSlash =>
      ⟨fun h => hLine ⟨hSlash, h⟩, fun h => hBlock ⟨hSlash, h⟩⟩
    exact ⟨.plain c, cs, .plain hQuote hPlain, rfl⟩

theorem exists_layout (cs : List Char) : ∃ ps, Layout cs ps := by
  -- What stands first leaves a shorter text.
  induction hLength : cs.length using Nat.strong_induction_on generalizing cs with
  | _ n ih =>
      cases cs with
      | nil => exact ⟨[], .nil⟩
      | cons c cs =>
          obtain ⟨p, after, hFirst, hText⟩ := exists_stands c cs
          have hPos := List.length_pos_iff.mpr hFirst.text_ne_nil
          have hShorter : after.length < n := by
            rw [← hLength, hText, List.length_append]
            omega
          obtain ⟨ps, hRest⟩ := ih _ hShorter after rfl
          exact ⟨p :: ps, hText ▸ .cons hFirst hRest⟩

/-- A text has exactly one layout. -/
theorem layout_iff {cs : List Char} {ps : List Piece} : Layout cs ps ↔ ps = cut .code cs := by
  have hOnly {ps : List Piece} (h : Layout cs ps) : ps = cut .code cs := by
    induction h with
    | nil => simp [cut]
    | cons first _ ih => rw [cut_of_stands first, ih]
  refine ⟨hOnly, ?_⟩
  rintro rfl
  obtain ⟨ps, hLayout⟩ := exists_layout cs
  rwa [← hOnly hLayout]

section Stripped

variable {ps : List Piece}

theorem Piece.not_isComment_of_mem_stripped {p q : Piece} (h : q ∈ p.stripped) :
    q.isComment = false := by
  cases p <;> simp only [Piece.stripped, List.mem_replicate, List.mem_singleton, List.not_mem_nil] at h
  case block => rw [h.2]; rfl
  all_goals rw [h]; rfl

theorem Piece.removals_of_not_isComment {p : Piece} (h : p.isComment = false) (start : Nat) :
    p.removals start = [] := by
  cases p with
  | plain | literal | unclosed => rfl
  | line | block => cases h

theorem Piece.kept_of_not_isComment {p : Piece} (h : p.isComment = false) : p.kept = p.text := by
  cases p with
  | plain | literal | unclosed => rfl
  | line | block => cases h

/-- Where there is no comment, nothing is removed. -/
theorem removalsOf_eq_nil (h : ∀ p ∈ ps, p.isComment = false) (start : Nat) :
    removalsOf start ps = [] := by
  induction ps generalizing start with
  | nil => rfl
  | cons p ps ih =>
      rw [List.forall_mem_cons] at h
      rw [removalsOf, Piece.removals_of_not_isComment h.1, ih h.2, List.append_nil]

/-- Where there are no comments, everything is kept. -/
theorem flatMap_kept (h : ∀ p ∈ ps, p.isComment = false) :
    ps.flatMap Piece.kept = ps.flatMap Piece.text :=
  List.flatMap_congr fun p hp => Piece.kept_of_not_isComment (h p hp)

end Stripped

/-- A text from which comments have been removed has none. What stood in the text outside of comments
stands there as it did, and nothing else does but the line breaks of comments. -/
theorem strip_strip (text : String) :
    ∃ out ps, strip text = .ok out ∧ Layout text.toList ps ∧
      (∀ qs, Layout out.toList qs ↔ qs = ps.flatMap Piece.stripped) ∧
      removals out = [] ∧ strip out = .ok out := by
  obtain ⟨out, hStrip⟩ := exists_strip text
  have hPieces := pieces_strip hStrip
  have hNone : ∀ p ∈ pieces out, p.isComment = false := by
    intro p hp
    rw [hPieces, List.mem_flatMap] at hp
    obtain ⟨q, _, hq⟩ := hp
    exact Piece.not_isComment_of_mem_stripped hq
  refine ⟨out, pieces text, hStrip, layout_iff.mpr rfl, fun qs => ?_, ?_, ?_⟩
  · rw [layout_iff, ← hPieces, pieces]
  · rw [removals_eq, removalsOf_eq_nil hNone]
  · rw [strip_eq, flatMap_kept hNone, text_pieces, String.ofList_toList]

example : strip "*/**// '/*' /*open" = .ok "*/ '/*' /*open" := by cbv

end SolNorm.Comment
