import SolNorm.Text.Comment
import SolNorm.Proofs.Text.Ascending

/-!
The removals of comments are edits from left to right. So they can always be applied, and every text
has a form without comments.
-/

namespace SolNorm

theorem Text.isBoundary_byteSize (before after : List Char) :
    isBoundary (before ++ after) (byteSize before) = true :=
  isBoundary_iff.mpr ⟨before, after, rfl, rfl⟩

theorem Text.isBoundary_append {before : List Char} {offset : Nat} (after : List Char)
    (h : isBoundary before offset = true) : isBoundary (before ++ after) offset = true := by
  obtain ⟨front, rest, rfl, rfl⟩ := isBoundary_iff.mp h
  exact isBoundary_iff.mpr ⟨front, rest ++ after, by simp, rfl⟩

namespace Comment

/-- Where the next removal can start, behind some characters. -/
def Mode.begin : Mode → List Char → Nat
  | .line start, _ => start
  | .block start _, _ => start
  | _, before => Text.byteSize before

/-- A comment that is being read has begun among some characters. -/
def Mode.Begun (mode : Mode) (before : List Char) : Prop :=
  match mode with
  | .line start => start < Text.byteSize before ∧ Text.isBoundary before start = true
  | .block start _ => start < Text.byteSize before ∧ Text.isBoundary before start = true
  | _ => True

/-- Edits from left to right that cover something, none of them before an offset. -/
structure Ordered (start : Nat) (cs : List Char) (edits : List Edit) : Prop where
  behind : ∀ e ∈ edits, start ≤ e.span.start
  fits : ∀ e ∈ edits, e.span.start < e.span.stop ∧ e.FitsIn cs
  before : (edits.map Edit.span).Pairwise Span.Before

theorem Ordered.mono {start start' : Nat} {cs : List Char} {edits : List Edit}
    (h : Ordered start cs edits) (hLe : start' ≤ start) : Ordered start' cs edits :=
  ⟨fun e he => hLe.trans (h.behind e he), h.fits, h.before⟩

/-- One more removal, which stops where the others may start. -/
theorem Ordered.cons {start stop breaks : Nat} {cs : List Char} {edits : List Edit}
    (h : Ordered stop cs edits) (hLt : start < stop) (hStart : Text.isBoundary cs start = true)
    (hStop : Text.isBoundary cs stop = true) :
    Ordered start cs (removal start stop breaks :: edits) where
  behind := by
    intro e he
    rcases List.mem_cons.mp he with rfl | he
    · exact Nat.le_refl _
    · exact hLt.le.trans (h.behind e he)
  fits := by
    intro e he
    rcases List.mem_cons.mp he with rfl | he
    · exact ⟨hLt, hLt.le, hStart, hStop⟩
    · exact h.fits e he
  before := by
    refine List.pairwise_cons.mpr ⟨?_, h.before⟩
    intro s hs
    obtain ⟨e, he, rfl⟩ := List.mem_map.mp hs
    have hBehind := h.behind e he
    exact ⟨hLt.trans_le hBehind, hBehind⟩

theorem Ordered.nil (start : Nat) (cs : List Char) : Ordered start cs [] :=
  ⟨by simp, by simp, .nil⟩

/-- Characters that have been read are in front. -/
theorem Ordered.move {start start' : Nat} {before read cs : List Char} {edits : List Edit}
    (h : Ordered start' (before ++ read ++ cs) edits) (hLe : start ≤ start') :
    Ordered start (before ++ (read ++ cs)) edits := by
  rw [← List.append_assoc]
  exact h.mono hLe

/-- A comment that has begun stays so as the text is read on. -/
theorem Mode.Begun.move {mode : Mode} {before : List Char} (h : mode.Begun before)
    (read : List Char) : mode.Begun (before ++ read) := by
  cases mode with
  | code => trivial
  | quoted quote => trivial
  | line start => exact ⟨by simp; have := h.1; omega, Text.isBoundary_append read h.2⟩
  | block start breaks => exact ⟨by simp; have := h.1; omega, Text.isBoundary_append read h.2⟩

/-- No comment is being read. -/
def Mode.IsOutside : Mode → Prop
  | .line _ => False
  | .block _ _ => False
  | _ => True

/-- Outside of comments the next removal starts behind all that has been read. -/
theorem Ordered.move_outside {mode : Mode} {before read cs : List Char} {edits : List Edit}
    (hMode : mode.IsOutside)
    (h : mode.Begun (before ++ read) →
      Ordered (mode.begin (before ++ read)) (before ++ read ++ cs) edits) :
    Ordered (Text.byteSize before) (before ++ (read ++ cs)) edits := by
  have hBegun : mode.Begun (before ++ read) ∧
      mode.begin (before ++ read) = Text.byteSize (before ++ read) := by
    cases mode with
    | code => exact ⟨trivial, rfl⟩
    | quoted quote => exact ⟨trivial, rfl⟩
    | line start => exact hMode.elim
    | block start breaks => exact hMode.elim
  have hNext := h hBegun.1
  rw [hBegun.2] at hNext
  exact hNext.move (by simp)

/-- The run of the scan: what has been read stays in front, and the removals in the rest start no
earlier than a comment that has begun. -/
theorem ordered_removalsFrom (mode : Mode) (offset : Nat) (cs before : List Char)
    (hOffset : offset = Text.byteSize before) (hBegun : mode.Begun before) :
    Ordered (mode.begin before) (before ++ cs) (removalsFrom mode offset cs) := by
  -- Each step moves the characters that it reads from the rest to what is in front.
  induction mode, offset, cs using removalsFrom.induct generalizing before with
  | case1 start offset =>
      obtain ⟨hLt, hStart⟩ := hBegun
      rw [removalsFrom, hOffset]
      exact (Ordered.nil _ _).cons hLt (Text.isBoundary_append [] hStart)
        (Text.isBoundary_byteSize before [])
  | case2 mode offset hOther =>
      rw [removalsFrom]
      · exact Ordered.nil _ _
      · exact hOther
  | case3 offset cs ih =>
      rw [removalsFrom]
      have hMarks : (Mode.line offset).Begun (before ++ ['/', '/']) := by
        subst hOffset
        exact ⟨by simp [Char.utf8Size_pos], Text.isBoundary_byteSize before _⟩
      exact (ih (before ++ ['/', '/']) (by simp [hOffset]; rfl) hMarks).move hOffset.ge
  | case4 offset cs ih =>
      rw [removalsFrom]
      have hMarks : (Mode.block offset 0).Begun (before ++ ['/', '*']) := by
        subst hOffset
        exact ⟨by simp [Char.utf8Size_pos], Text.isBoundary_byteSize before _⟩
      exact (ih (before ++ ['/', '*']) (by simp [hOffset]; rfl) hMarks).move hOffset.ge
  | case5 offset c cs hLine hBlock mode ih =>
      rw [removalsFrom]
      · have hMode : mode.IsOutside := by
          unfold mode
          split <;> trivial
        exact Ordered.move_outside hMode (ih (before ++ [c]) (by simp [hOffset]))
      · exact hLine
      · exact hBlock
  | case6 quote offset c cs ih =>
      rw [removalsFrom]
      have hSize : offset + 1 + c.utf8Size = Text.byteSize (before ++ ['\\', c]) := by
        simp [hOffset, Nat.add_assoc]
        rfl
      have hMode : (Mode.quoted quote).IsOutside := trivial
      exact Ordered.move_outside hMode (ih (before ++ ['\\', c]) hSize)
  | case7 quote offset c cs hEscape mode ih =>
      rw [removalsFrom]
      · have hMode : mode.IsOutside := by
          unfold mode
          split <;> trivial
        exact Ordered.move_outside hMode (ih (before ++ [c]) (by simp [hOffset]))
      · exact hEscape
  | case8 start offset cs ih =>
      obtain ⟨hLt, hStart⟩ := hBegun
      rw [removalsFrom, if_pos rfl]
      have hNext := ih (before ++ ['\n']) (by simp [hOffset]; rfl) trivial
      have hRest : Ordered offset (before ++ ('\n' :: cs)) (removalsFrom .code (offset + 1) cs) :=
        hNext.move (by simp [Mode.begin, hOffset])
      rw [hOffset] at hRest ⊢
      exact hRest.cons hLt (Text.isBoundary_append _ hStart) (Text.isBoundary_byteSize before _)
  | case9 start offset c cs hBreak ih =>
      rw [removalsFrom, if_neg hBreak]
      exact (ih (before ++ [c]) (by simp [hOffset]) (hBegun.move [c])).move (Nat.le_refl start)
  | case10 start breaks offset cs ih =>
      obtain ⟨hLt, hStart⟩ := hBegun
      rw [removalsFrom]
      have hSize : offset + 2 = Text.byteSize (before ++ ['*', '/']) := by
        simp [hOffset]
        rfl
      have hRest : Ordered (offset + 2) (before ++ (['*', '/'] ++ cs))
          (removalsFrom .code (offset + 2) cs) := (ih (before ++ ['*', '/']) hSize trivial).move hSize.le
      have hStop : start < offset + 2 := by omega
      refine hRest.cons hStop (Text.isBoundary_append _ hStart) ?_
      rw [hSize, ← List.append_assoc]
      exact Text.isBoundary_byteSize _ cs
  | case11 start breaks offset c cs hClose breaks' ih =>
      rw [removalsFrom]
      · exact (ih (before ++ [c]) (by simp [hOffset]) (hBegun.move [c])).move (Nat.le_refl start)
      · exact hClose

theorem ordered_removals (text : String) : Ordered 0 text.toList (removals text) :=
  ordered_removalsFrom .code 0 text.toList [] rfl trivial

theorem removals_fit (text : String) : ∀ e ∈ removals text, e.span.FitsIn text :=
  fun e he => ((ordered_removals text).fits e he).2

theorem removals_cover (text : String) : ∀ e ∈ removals text, e.span.start < e.span.stop :=
  fun e he => ((ordered_removals text).fits e he).1

theorem removals_before (text : String) :
    ((removals text).map Edit.span).Pairwise Span.Before :=
  (ordered_removals text).before

/-- Every text has a form without comments. -/
theorem exists_strip (text : String) : ∃ stripped, strip text = .ok stripped := by
  have hFits : ∀ e ∈ removals text, e.span.FitsIn (Source.ofText text).text := removals_fit text
  obtain ⟨hStage, next, hCommit, _⟩ := Batch.commit_of_before hFits (removals_before text)
  refine ⟨next.text, ?_⟩
  unfold strip
  rw [hStage]
  show ((Batch.mk (removals text)).commit (.ofText text) >>= fun source => pure source.text) = _
  rw [hCommit]
  rfl

end Comment

end SolNorm
