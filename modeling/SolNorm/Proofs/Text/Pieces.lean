import SolNorm.Proofs.Text.Comments
import SolNorm.Proofs.Text.Parts

/-!
The pieces of a text. The removal of comments cuts a text into single characters, string literals and
comments, and what it gives back is made of what it keeps of each piece. Putting the pieces together
that are kept makes no comment and no string of what was none, so the result is cut at the same places.
-/

namespace SolNorm.Comment

/-- A piece of a text. -/
inductive Piece where
  /-- A character outside of strings and comments. -/
  | plain (c : Char)
  /-- A string literal from its quote to the quote, line break or end of the text that stops it. A line
  break is not part of it. -/
  | literal (cs : List Char)
  /-- A line comment without the line break behind it. -/
  | line (cs : List Char)
  /-- A block comment with its marks. -/
  | block (cs : List Char)
  /-- The rest of a text from the mark of a block comment on that is never closed. -/
  | unclosed (cs : List Char)
  deriving DecidableEq, Repr

namespace Piece

/-- The characters of a piece. -/
def text : Piece → List Char
  | .plain c => [c]
  | .literal cs | .line cs | .block cs | .unclosed cs => cs

/-- Whether a piece is removed. -/
def isComment : Piece → Bool
  | .line _ | .block _ => true
  | _ => false

/-- The pieces that are left of a piece when comments are removed. -/
def stripped : Piece → List Piece
  | .line _ => []
  | .block cs => List.replicate (cs.count '\n') (.plain '\n')
  | p => [p]

/-- The characters that are left of a piece when comments are removed. -/
def kept : Piece → List Char
  | .line _ => []
  | .block cs => List.replicate (cs.count '\n') '\n'
  | p => p.text

/-- The removal of a piece that starts at an offset. -/
def removals (start : Nat) : Piece → List Edit
  | .line cs => [removal start (start + Text.byteSize cs) 0]
  | .block cs => [removal start (start + Text.byteSize cs) (cs.count '\n')]
  | _ => []

end Piece

/-- What is being read, with the characters of it that have been read. -/
inductive Reading where
  | code
  | quoted (quote : Char) (held : List Char)
  | line (held : List Char)
  | block (held : List Char)

/-- The characters of the piece that is being read. -/
def Reading.held : Reading → List Char
  | .code => []
  | .quoted _ held | .line held | .block held => held

/-- The pieces of what is being read and the characters that follow. -/
def cut : Reading → List Char → List Piece
  | .code, [] => []
  | .quoted _ held, [] => [.literal held]
  | .line held, [] => [.line held]
  | .block held, [] => [.unclosed held]
  | .code, '/' :: '/' :: cs => cut (.line ['/', '/']) cs
  | .code, '/' :: '*' :: cs => cut (.block ['/', '*']) cs
  | .code, c :: cs =>
    if c = '"' ∨ c = '\'' then cut (.quoted c [c]) cs else .plain c :: cut .code cs
  | .quoted quote held, '\\' :: c :: cs => cut (.quoted quote (held ++ ['\\', c])) cs
  | .quoted quote held, c :: cs =>
    if c = quote then .literal (held ++ [c]) :: cut .code cs
    else if c = '\n' then .literal held :: .plain c :: cut .code cs
    else cut (.quoted quote (held ++ [c])) cs
  | .line held, c :: cs =>
    if c = '\n' then .line held :: .plain c :: cut .code cs else cut (.line (held ++ [c])) cs
  | .block held, '*' :: '/' :: cs => .block (held ++ ['*', '/']) :: cut .code cs
  | .block held, c :: cs => cut (.block (held ++ [c])) cs

/-- The pieces of a text. -/
def pieces (text : String) : List Piece := cut .code text.toList

/-- The removals of the pieces from an offset on. -/
def removalsOf : Nat → List Piece → List Edit
  | _, [] => []
  | start, p :: rest => p.removals start ++ removalsOf (start + Text.byteSize p.text) rest

/-- The state of the scan for comments in which a piece that starts at an offset is being read. -/
def Reading.mode (start : Nat) : Reading → Mode
  | .code => .code
  | .quoted quote _ => .quoted quote
  | .line _ => .line start
  | .block held => .block start (held.count '\n')

/-- Nothing of a text is lost when it is cut. -/
theorem text_cut (r : Reading) (cs : List Char) :
    (cut r cs).flatMap Piece.text = r.held ++ cs := by
  fun_induction cut r cs <;> simp_all [Piece.text, Reading.held]

/-- The pieces of a text make up the text. -/
theorem text_pieces (text : String) : (pieces text).flatMap Piece.text = text.toList :=
  text_cut .code text.toList

/-- The scan for comments removes the pieces that are comments. -/
theorem removalsFrom_eq (r : Reading) (cs : List Char) (start : Nat) :
    removalsFrom (r.mode start) (start + Text.byteSize r.held) cs = removalsOf start (cut r cs) := by
  induction r, cs using cut.induct generalizing start with
  | case1 => simp [cut, removalsOf, removalsFrom, Reading.mode]
  | case2 quote held => simp [cut, removalsOf, removalsFrom, Reading.mode, Piece.removals]
  | case3 held => simp [cut, removalsOf, removalsFrom, Reading.mode, Piece.removals, Reading.held]
  | case4 held => simp [cut, removalsOf, removalsFrom, Reading.mode, Piece.removals]
  | case5 cs ih => exact ih start
  | case6 cs ih => exact ih start
  | case7 c cs hLine hBlock hQuote ih =>
      rw [Reading.mode, removalsFrom, if_pos hQuote, cut, if_pos hQuote, ← ih]
      · simp [Reading.held, Reading.mode]
      all_goals assumption
  | case8 c cs hLine hBlock hQuote ih =>
      rw [Reading.mode, removalsFrom, if_neg hQuote, cut, if_neg hQuote, removalsOf, ← ih]
      · simp [Reading.held, Reading.mode, Piece.removals, Piece.text]
      all_goals assumption
  | case9 quote held c cs ih =>
      rw [Reading.mode, removalsFrom, cut, ← ih]
      simp [Reading.held, Reading.mode, Nat.add_assoc]
      rfl
  | case10 held c cs hEscape ih =>
      rw [Reading.mode, removalsFrom, if_pos (.inl rfl), cut, if_pos rfl, removalsOf, ← ih]
      · simp [Reading.held, Reading.mode, Piece.removals, Piece.text, Nat.add_assoc]
      all_goals assumption
  | case11 quote held cs hEscape hQuote ih =>
      rw [Reading.mode, removalsFrom, if_pos (.inr rfl), cut, if_neg hQuote, if_pos rfl, removalsOf,
        removalsOf, ← ih]
      · simp [Reading.held, Reading.mode, Piece.removals, Piece.text]
      all_goals assumption
  | case12 quote held c cs hEscape hQuote hBreak ih =>
      rw [Reading.mode, removalsFrom, if_neg (not_or.mpr ⟨hQuote, hBreak⟩), cut, if_neg hQuote,
        if_neg hBreak, ← ih]
      · simp [Reading.held, Reading.mode, Nat.add_assoc]
      all_goals assumption
  | case13 held cs ih =>
      rw [Reading.mode, removalsFrom, if_pos rfl, cut, if_pos rfl, removalsOf, removalsOf, ← ih]
      simp [Reading.held, Reading.mode, Piece.removals, Piece.text]
      rfl
  | case14 held c cs hBreak ih =>
      rw [Reading.mode, removalsFrom, if_neg hBreak, cut, if_neg hBreak, ← ih]
      simp [Reading.held, Reading.mode, Nat.add_assoc]
  | case15 held cs ih =>
      have hClosed : start + Text.byteSize held + 2 = start + Text.byteSize (held ++ ['*', '/']) := by
        simp [Nat.add_assoc]
        rfl
      rw [Reading.mode, Reading.held, removalsFrom, hClosed, cut, removalsOf, ← ih]
      simp [Reading.held, Reading.mode, Piece.removals, Piece.text]
  | case16 held c cs hClose ih =>
      rw [Reading.mode, removalsFrom, cut, ← ih]
      · by_cases hBreak : c = '\n' <;> simp [Reading.held, Reading.mode, hBreak, Nat.add_assoc]
      all_goals assumption

theorem removals_eq (text : String) : removals text = removalsOf 0 (pieces text) :=
  removalsFrom_eq .code text.toList 0

/-- What is kept of the pieces is what the removals leave of them, behind a gap from which nothing is
removed. -/
theorem splice?_removalsOf (before gap : List Char) (ps : List Piece) :
    Edit.splice? (before ++ gap ++ ps.flatMap Piece.text)
        (Text.byteSize (before ++ gap ++ ps.flatMap Piece.text)) (Text.byteSize before)
        (removalsOf (Text.byteSize (before ++ gap)) ps) =
      some (gap ++ ps.flatMap Piece.kept) := by
  induction ps generalizing before gap with
  | nil => simpa [removalsOf, Edit.splice?] using Text.slice?_append before gap []
  | cons p rest ih =>
      have hGap := Text.slice?_append before gap ((p :: rest).flatMap Piece.text)
      have hText : before ++ gap ++ (p :: rest).flatMap Piece.text =
          before ++ gap ++ p.text ++ [] ++ rest.flatMap Piece.text := by simp
      have hStop : Text.byteSize (before ++ gap) + Text.byteSize p.text =
          Text.byteSize (before ++ gap ++ p.text) := (Text.byteSize_append _ _).symm
      have hRemoved := ih (before ++ gap ++ p.text) []
      rw [← hText, List.append_nil] at hRemoved
      have hKept := ih before (gap ++ p.text)
      rw [removalsOf, hStop]
      cases p with
      | plain | literal | unclosed => simpa [Piece.removals, Piece.kept, Piece.text] using hKept
      | line cs | block cs =>
          refine Edit.splice?_cons_iff.mpr ⟨gap, rest.flatMap Piece.kept, hGap, ?_, ?_⟩
          · exact hStop.symm ▸ hRemoved
          · simp [removal, Piece.kept]

/-- Removing the comments of a text keeps of each piece what is to be kept. -/
theorem strip_eq (text : String) :
    strip text = .ok (String.ofList ((pieces text).flatMap Piece.kept)) := by
  have hFits : ∀ e ∈ removals text, e.span.FitsIn (Source.ofText text).text := removals_fit text
  obtain ⟨hStage, next, hCommit, hText⟩ := Batch.commit_of_before hFits (removals_before text)
  have hKept := splice?_removalsOf [] [] (pieces text)
  simp only [List.nil_append, text_pieces] at hKept
  have hNext : next.text = String.ofList ((pieces text).flatMap Piece.kept) := by
    rw [removals_eq] at hText
    have hSame : some next.text.toList = some ((pieces text).flatMap Piece.kept) :=
      hText.symm.trans hKept
    rw [← Option.some.inj hSame, String.ofList_toList]
  rw [strip, hStage]
  show ((Batch.mk (removals text)).commit (.ofText text) >>= fun source => pure source.text) = _
  rw [hCommit]
  exact congrArg Except.ok hNext

/-- What is left of a text is what is kept of its pieces. -/
theorem toList_strip {text out : String} (h : strip text = .ok out) :
    out.toList = (pieces text).flatMap Piece.kept := by
  rw [strip_eq] at h
  rw [← Except.ok.inj h, String.toList_ofList]

/-- A string that is being read is kept. -/
theorem exists_kept_quoted (quote : Char) (held cs : List Char) :
    ∃ rest, (cut (.quoted quote held) cs).flatMap Piece.kept = held ++ rest := by
  generalize hReading : Reading.quoted quote held = r
  induction r, cs using cut.induct generalizing held with
  | case2 quote' held' =>
      cases hReading
      exact ⟨[], by simp [cut, Piece.kept, Piece.text]⟩
  | case9 quote' held' c cs ih =>
      cases hReading
      obtain ⟨rest, hRest⟩ := ih _ rfl
      exact ⟨'\\' :: c :: rest, by simp [cut, hRest]⟩
  | case10 held' c cs hEscape ih =>
      cases hReading
      rw [cut, if_pos rfl]
      · exact ⟨_, List.append_assoc _ _ _⟩
      · exact hEscape
  | case11 quote' held' cs hEscape hQuote ih =>
      cases hReading
      rw [cut, if_neg hQuote, if_pos rfl]
      · exact ⟨_, rfl⟩
      · exact hEscape
  | case12 quote' held' c cs hEscape hQuote hBreak ih =>
      cases hReading
      obtain ⟨rest, hRest⟩ := ih _ rfl
      rw [cut, if_neg hQuote, if_neg hBreak]
      · exact ⟨c :: rest, by simp [hRest]⟩
      · exact hEscape
  | _ => cases hReading

/-- What is kept of code starts with the character with which the code starts, unless that can be the
mark of a comment. -/
theorem exists_cons_of_kept {c : Char} {cs rest : List Char}
    (hKept : (cut .code cs).flatMap Piece.kept = c :: rest) (hMark : ∀ rest, cs ≠ '/' :: rest) :
    ∃ rest, cs = c :: rest := by
  cases cs with
  | nil => simp [cut] at hKept
  | cons d cs =>
      have hSlash : d ≠ '/' := fun h => hMark cs (h ▸ rfl)
      rw [cut] at hKept
      · split at hKept
        · obtain ⟨front, hFront⟩ := exists_kept_quoted d [d] cs
          rw [hFront] at hKept
          exact ⟨cs, by rw [(List.cons.inj hKept).1]⟩
        · exact ⟨cs, by rw [(List.cons.inj hKept).1]⟩
      all_goals exact fun _ h _ => hSlash h

theorem cut_break (cs : List Char) : cut .code ('\n' :: cs) = .plain '\n' :: cut .code cs := by
  rw [cut, if_neg (by decide)]
  all_goals exact fun _ h _ => absurd h (by decide)

theorem cut_breaks (breaks : Nat) (cs : List Char) :
    cut .code (List.replicate breaks '\n' ++ cs) =
      List.replicate breaks (.plain '\n') ++ cut .code cs := by
  induction breaks with
  | zero => rfl
  | succ n ih => rw [List.replicate_succ, List.replicate_succ, List.cons_append, cut_break, ih]; rfl

section Quoted

variable {quote : Char} {held cs : List Char}

theorem cut_quote (h : quote = '"' ∨ quote = '\'') :
    cut .code (quote :: cs) = cut (.quoted quote [quote]) cs := by
  have hMark : quote ≠ '/' := by rcases h with rfl | rfl <;> decide
  rw [cut, if_pos h]
  all_goals exact fun _ hSlash _ => hMark hSlash

theorem cut_close (h : quote = '"' ∨ quote = '\'') :
    cut (.quoted quote held) (quote :: cs) = .literal (held ++ [quote]) :: cut .code cs := by
  have hPlain : quote ≠ '\\' := by rcases h with rfl | rfl <;> decide
  rw [cut, if_pos rfl]
  exact fun _ _ hSlash _ => hPlain hSlash

/-- A line break stops a string and stands behind it. -/
theorem cut_stop (h : quote = '"' ∨ quote = '\'') :
    cut (.quoted quote held) ('\n' :: cs) = .literal held :: cut .code ('\n' :: cs) := by
  have hOther : '\n' ≠ quote := by rcases h with rfl | rfl <;> decide
  rw [cut_break, cut, if_neg hOther, if_pos rfl]
  exact fun _ _ hSlash _ => absurd hSlash (by decide)

end Quoted

/-- What is left of the pieces is what is kept of the text, cut. -/
def Recuts (r : Reading) (cs : List Char) : Prop :=
  let left := (cut r cs).flatMap Piece.stripped
  let kept := (cut r cs).flatMap Piece.kept
  match r with
  | .code | .line _ => cut .code kept = left
  | .quoted quote held =>
    quote = '"' ∨ quote = '\'' → ∃ rest, kept = held ++ rest ∧ cut (.quoted quote held) rest = left
  | .block held => cut (.block held) cs = [.unclosed (held ++ cs)] ∨ cut .code kept = left

/-- By induction on the text: what is kept is cut into what is left of the pieces. -/
theorem recuts (r : Reading) (cs : List Char) : Recuts r cs := by
  induction r, cs using cut.induct with
  | case1 => rfl
  | case2 quote held => exact fun _ => ⟨[], by simp [cut, Piece.kept, Piece.text], rfl⟩
  | case3 held => rfl
  | case4 held => exact .inl (by simp [cut])
  | case5 cs ih => exact ih
  | case6 cs ih =>
      rcases ih with hOpen | hClosed
      · have hCode : cut .code ('/' :: '*' :: cs) = [.unclosed ('/' :: '*' :: cs)] := hOpen
        show cut .code ((cut .code ('/' :: '*' :: cs)).flatMap Piece.kept) = _
        rw [hCode]
        simpa [Piece.kept, Piece.stripped, Piece.text] using hCode
      · exact hClosed
  | case7 c cs hLine hBlock hQuote ih =>
      obtain ⟨rest, hKept, hCut⟩ := ih hQuote
      show cut .code ((cut .code (c :: cs)).flatMap Piece.kept) = _
      rw [cut_quote hQuote, hKept, ← hCut]
      exact cut_quote hQuote
  | case8 c cs hLine hBlock hQuote ih =>
      have hCode : cut .code (c :: cs) = .plain c :: cut .code cs := by
        rw [cut, if_neg hQuote] <;> assumption
      show cut .code ((cut .code (c :: cs)).flatMap Piece.kept) = _
      rw [hCode, List.flatMap_cons, List.flatMap_cons, ← show cut .code _ = _ from ih]
      show cut .code (c :: _) = _
      -- A slash meets no other mark now that it did not meet before.
      rw [cut, if_neg hQuote]
      · rfl
      · rintro rest hSlash hKept
        obtain ⟨front, hFront⟩ := exists_cons_of_kept hKept fun front => hLine front hSlash
        exact hLine front hSlash hFront
      · rintro rest hSlash hKept
        obtain ⟨front, hFront⟩ := exists_cons_of_kept hKept fun front => hLine front hSlash
        exact hBlock front hSlash hFront
  | case9 quote held c cs ih =>
      intro hQuote
      obtain ⟨rest, hKept, hCut⟩ := ih hQuote
      exact ⟨'\\' :: c :: rest, by simpa [cut] using hKept, hCut⟩
  | case10 held c cs hEscape ih =>
      intro hQuote
      refine ⟨c :: (cut .code cs).flatMap Piece.kept, ?_, ?_⟩
      · simp [cut_close hQuote, Piece.kept, Piece.text]
      · rw [cut_close hQuote, cut_close hQuote, show cut .code _ = _ from ih]
        rfl
  | case11 quote held cs hEscape hQuote ih =>
      intro hIsQuote
      refine ⟨'\n' :: (cut .code cs).flatMap Piece.kept, ?_, ?_⟩
      · simp [cut_stop hIsQuote, cut_break, Piece.kept, Piece.text]
      · rw [cut_stop hIsQuote, cut_stop hIsQuote, cut_break, cut_break, show cut .code _ = _ from ih]
        rfl
  | case12 quote held c cs hEscape hQuote hBreak ih =>
      intro hIsQuote
      obtain ⟨rest, hKept, hCut⟩ := ih hIsQuote
      have hCode {cs : List Char} (h : c = '\\' → cs = []) :
          cut (.quoted quote held) (c :: cs) = cut (.quoted quote (held ++ [c])) cs := by
        rw [cut, if_neg hQuote, if_neg hBreak]
        intro d rest hSlash hCons
        simp [h hSlash] at hCons
      have hNil : c = '\\' → cs = [] := by
        intro hSlash
        cases cs with
        | nil => rfl
        | cons d rest => exact absurd rfl (hEscape d rest hSlash)
      refine ⟨c :: rest, ?_, ?_⟩
      · simpa [hCode hNil] using hKept
      · rw [hCode hNil, ← hCut, hCode]
        -- A backslash at the end of the text is still there.
        intro hSlash
        simpa [hNil hSlash, cut, Piece.kept, Piece.text] using hKept
  | case13 held cs ih =>
      show cut .code ((cut (.line held) ('\n' :: cs)).flatMap Piece.kept) = _
      rw [cut, if_pos rfl]
      exact (cut_break _).trans (congrArg _ ih)
  | case14 held c cs hBreak ih =>
      show cut .code ((cut (.line held) (c :: cs)).flatMap Piece.kept) = _
      rw [cut, if_neg hBreak]
      exact ih
  | case15 held cs ih =>
      refine .inr ?_
      rw [cut, List.flatMap_cons, List.flatMap_cons, ← show cut .code _ = _ from ih]
      exact cut_breaks _ _
  | case16 held c cs hClose ih =>
      have hNext : cut (.block held) (c :: cs) = cut (.block (held ++ [c])) cs := by
        rw [cut]
        exact hClose
      have hHeld : held ++ c :: cs = held ++ [c] ++ cs := List.append_cons held c cs
      rw [Recuts, hNext, hHeld]
      exact ih

/-- The pieces of a text without comments are what is left of the pieces of the text. -/
theorem pieces_strip {text out : String} (h : strip text = .ok out) :
    pieces out = (pieces text).flatMap Piece.stripped := by
  rw [pieces, toList_strip h]
  exact recuts .code text.toList

end SolNorm.Comment
