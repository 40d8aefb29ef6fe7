import SolNorm.Text.Position
import SolNorm.Proofs.Text.Layout

/-!
Lines of a text without comments. Bytes that no removal covers are moved by what the removals before
them take away and put in. Each removal puts in the line breaks that it takes away, so a place that is
reported in the result is on the same line of the text.
-/

namespace SolNorm

namespace Text

/-- The bytes of some characters in UTF-8. -/
def bytes (cs : List Char) : List UInt8 := cs.flatMap String.utf8EncodeChar

/-- The line of the byte at an offset, counted from one. -/
def lineOf (cs : List Char) (offset : Nat) : Nat := 1 + ((bytes cs).take offset).count 10

section Bytes

@[simp] theorem bytes_append (before rest : List Char) :
    bytes (before ++ rest) = bytes before ++ bytes rest :=
  List.flatMap_append

@[simp] theorem length_bytes (cs : List Char) : (bytes cs).length = byteSize cs := by
  induction cs with
  | nil => rfl
  | cons c cs ih =>
      rw [bytes, List.flatMap_cons, List.length_append, String.length_utf8EncodeChar, byteSize_cons]
      exact congrArg _ ih

theorem or_ne_break {x y : UInt8} (h : 128 ≤ y) : x ||| y ≠ 10 := by
  intro hBreak
  have hLe : y.toNat ≤ (x ||| y).toNat := by
    rw [UInt8.toNat_or]
    exact Nat.right_le_or
  rw [hBreak] at hLe
  exact absurd (UInt8.le_trans h (UInt8.le_iff_toNat_le.mpr hLe)) (by decide)

/-- Only a line break has the byte of a line break: the bytes of longer characters are all larger. -/
theorem count_utf8EncodeChar (c : Char) :
    (String.utf8EncodeChar c).count 10 = if c = '\n' then 1 else 0 := by
  have hOther (h : c.utf8Size ≠ 1) : c ≠ '\n' := by
    rintro rfl
    exact h rfl
  rcases Char.utf8Size_eq c with h | h | h | h
  · have hSmall := UInt32.le_iff_toNat_le.mp (Char.utf8Size_eq_one_iff.mp h)
    have hByte : c.val.toUInt8 = 10 ↔ c = '\n' := by
      rw [← UInt8.toNat_inj, Char.ext_iff, ← UInt32.toNat_inj, UInt32.toNat_toUInt8,
        Nat.mod_eq_of_lt (hSmall.trans_lt (by decide))]
      rfl
    simp only [String.utf8EncodeChar_eq_singleton h, List.count_singleton, beq_iff_eq, hByte]
  · rw [String.utf8EncodeChar_eq_cons_cons h, if_neg (hOther (by omega))]
    simp [or_ne_break]
  · rw [String.utf8EncodeChar_eq_cons_cons_cons h, if_neg (hOther (by omega))]
    simp [or_ne_break]
  · rw [String.utf8EncodeChar_eq_cons_cons_cons_cons h, if_neg (hOther (by omega))]
    simp [or_ne_break]

/-- Line breaks are counted by bytes as by characters. -/
theorem count_bytes (cs : List Char) : (bytes cs).count 10 = cs.count '\n' := by
  induction cs with
  | nil => rfl
  | cons c cs ih =>
      rw [bytes, List.flatMap_cons, List.count_append, count_utf8EncodeChar, List.count_cons,
        show List.count 10 (cs.flatMap String.utf8EncodeChar) = _ from ih, Nat.add_comm]
      simp

/-- Behind some characters, lines go on from their line breaks. -/
theorem lineOf_append (before rest : List Char) (offset : Nat) :
    lineOf (before ++ rest) (byteSize before + offset) = before.count '\n' + lineOf rest offset := by
  rw [lineOf, bytes_append, ← length_bytes, List.take_length_add_append, List.count_append,
    count_bytes, lineOf]
  omega

/-- The line of a byte among some characters depends on them and on the line breaks before them. -/
theorem lineOf_among {cs : List Char} {place : Nat} (h : place ≤ byteSize cs)
    (before after : List Char) :
    lineOf (before ++ (cs ++ after)) (byteSize before + place) =
      before.count '\n' + lineOf cs place := by
  have hPlace : place ≤ (bytes cs).length := by rwa [length_bytes]
  rw [lineOf_append, lineOf, bytes_append, List.take_append_of_le_length hPlace, lineOf]

theorem getElem?_bytes_among {cs : List Char} {place : Nat} (h : place < byteSize cs)
    (before after : List Char) :
    (bytes (before ++ (cs ++ after)))[byteSize before + place]? = (bytes cs)[place]? := by
  have hPlace : place < (bytes cs).length := by rwa [length_bytes]
  rw [bytes_append, bytes_append, ← length_bytes before,
    List.getElem?_append_right (Nat.le_add_right _ _), Nat.add_sub_cancel_left,
    List.getElem?_append_left hPlace]

/-- Going on by some characters adds their breaks to the line. -/
theorem line_foldl_advance (p : Position) (cs : List Char) :
    (cs.foldl Position.advance p).line = p.line + cs.count '\n' := by
  induction cs generalizing p with
  | nil => rfl
  | cons c cs ih =>
      rw [List.foldl_cons, ih, List.count_cons, Position.advance]
      by_cases hBreak : c = '\n'
      · simp [hBreak]
        omega
      · simp [hBreak]

/-- A boundary is reported on the line of the byte there. -/
theorem exists_position {text : String} {offset : Nat} (h : isBoundary text.toList offset = true) :
    ∃ p, Position.at? text offset = some p ∧ p.line = lineOf text.toList offset := by
  obtain ⟨before, rest, hText, rfl⟩ := isBoundary_iff.mp h
  have hLe : byteSize before ≤ byteSize text.toList := le_byteSize_of_isBoundary h
  refine ⟨Position.after before, ?_, ?_⟩
  · rw [Position.at?, Nat.min_eq_left hLe, hText, splitAt?_append]
    rfl
  · have hLine := lineOf_append before rest 0
    rw [hText, ← Nat.add_zero (byteSize before), hLine, Position.after, line_foldl_advance]
    exact Nat.add_comm _ _

/-- Whether a place among some characters is a boundary does not depend on what is around them. -/
theorem isBoundary_among {cs : List Char} {place : Nat} (hLe : place ≤ byteSize cs)
    (before after : List Char) :
    isBoundary (before ++ (cs ++ after)) (byteSize before + place) = isBoundary cs place := by
  rw [Bool.eq_iff_iff]
  constructor
  · intro h
    obtain ⟨front, rest, hRest, hSize⟩ := exists_middle (Nat.le_add_right _ _) h
    have hFront : byteSize front = place := by
      rw [byteSize_append] at hSize
      omega
    rcases List.append_eq_append_iff.mp hRest with ⟨extra, rfl, rfl⟩ | ⟨extra, rfl, rfl⟩
    · have hExtra : extra = [] := by
        apply eq_nil_of_byteSize
        rw [byteSize_append] at hFront
        omega
      exact isBoundary_iff.mpr ⟨cs, [], by simp, by simpa [hExtra] using hFront⟩
    · exact isBoundary_iff.mpr ⟨front, extra, rfl, hFront⟩
  · intro h
    obtain ⟨front, rest, rfl, rfl⟩ := isBoundary_iff.mp h
    exact isBoundary_iff.mpr ⟨before ++ front, rest ++ after, by simp, by simp⟩

end Bytes

end Text

namespace Edit

/-- How many bytes some edits take away. -/
def taken (edits : List Edit) : Nat := (edits.map fun e => e.span.length).sum

/-- How many bytes some edits put in. -/
def given (edits : List Edit) : Nat := (edits.map fun e => Text.byteSize e.replacement.toList).sum

/-- The offset in the result of some edits of what was at an offset in the text. The edits that stop
before it have moved it. -/
def moved (edits : List Edit) (offset : Nat) : Nat :=
  let passed := edits.filter fun e => e.span.stop ≤ offset
  offset - taken passed + given passed

@[simp] theorem taken_append (left right : List Edit) :
    taken (left ++ right) = taken left + taken right := by
  simp [taken]

@[simp] theorem given_append (left right : List Edit) :
    given (left ++ right) = given left + given right := by
  simp [given]

end Edit

namespace Comment

section Offsets

variable {left right ps : List Piece} {p : Piece} {start offset : Nat}

theorem removalsOf_append (start : Nat) (left right : List Piece) :
    removalsOf start (left ++ right) =
      removalsOf start left ++
        removalsOf (start + Text.byteSize (left.flatMap Piece.text)) right := by
  induction left generalizing start with
  | nil => rfl
  | cons p left ih => simp [removalsOf, ih, Nat.add_assoc]

/-- The removals of some pieces are where the pieces are. -/
theorem within_of_mem_removalsOf {e : Edit} (h : e ∈ removalsOf start ps) :
    start ≤ e.span.start ∧ e.span.stop ≤ start + Text.byteSize (ps.flatMap Piece.text) := by
  induction ps generalizing start with
  | nil => simp [removalsOf] at h
  | cons p ps ih =>
      rw [List.flatMap_cons, Text.byteSize_append]
      rcases List.mem_append.mp h with hp | hps
      · cases p <;> simp only [Piece.removals, List.mem_singleton, List.not_mem_nil] at hp
        all_goals
          subst hp
          simp [removal, Piece.text]
      · have hRest := ih hps
        omega

/-- A piece is kept in the room that its removal leaves of it. -/
theorem Piece.exists_room (start : Nat) (p : Piece) :
    ∃ room, Text.byteSize p.text = Edit.taken (p.removals start) + room ∧
      Text.byteSize p.kept = Edit.given (p.removals start) + room := by
  cases p with
  | plain | literal | unclosed =>
      exact ⟨_, (Nat.zero_add _).symm, (Nat.zero_add _).symm⟩
  | line cs | block cs =>
      exact ⟨0, by simp [Piece.text, Piece.removals, Edit.taken, removal, Span.length],
        by simp [Piece.kept, Piece.removals, Edit.given, removal]⟩

/-- What is not taken away is kept. -/
theorem exists_room (start : Nat) (ps : List Piece) :
    ∃ room, Text.byteSize (ps.flatMap Piece.text) = Edit.taken (removalsOf start ps) + room ∧
      Text.byteSize (ps.flatMap Piece.kept) = Edit.given (removalsOf start ps) + room := by
  induction ps generalizing start with
  | nil => exact ⟨0, rfl, rfl⟩
  | cons p ps ih =>
      obtain ⟨room, hText, hKept⟩ := p.exists_room start
      obtain ⟨rest, hTexts, hKepts⟩ := ih (start + Text.byteSize p.text)
      refine ⟨room + rest, ?_, ?_⟩
      · rw [List.flatMap_cons, Text.byteSize_append, removalsOf, Edit.taken_append]
        omega
      · rw [List.flatMap_cons, Text.byteSize_append, removalsOf, Edit.given_append]
        omega

/-- A comment covers its bytes. -/
theorem not_isComment_of_uncovered (hOffset : offset < Text.byteSize p.text)
    (h : ∀ e ∈ removalsOf 0 (left ++ p :: right),
      e.span.contains (Text.byteSize (left.flatMap Piece.text) + offset) = false) :
    p.isComment = false := by
  rw [removalsOf_append, removalsOf, Nat.zero_add] at h
  have hSelf {e : Edit} (he : e ∈ p.removals (Text.byteSize (left.flatMap Piece.text))) :=
    h e (List.mem_append_right _ (List.mem_append_left _ he))
  cases p with
  | plain | literal | unclosed => rfl
  | line cs | block cs =>
      have hNot := hSelf (List.mem_singleton.mpr rfl)
      exact absurd hOffset (by simpa [removal, Span.contains, Piece.text] using hNot)

/-- What is kept is moved to where it is among the pieces that are kept. -/
theorem moved_removalsOf
    (hCovers : ∀ e ∈ removalsOf 0 (left ++ p :: right), e.span.start < e.span.stop)
    (hp : p.isComment = false) (hOffset : offset ≤ Text.byteSize p.text) :
    Edit.moved (removalsOf 0 (left ++ p :: right))
        (Text.byteSize (left.flatMap Piece.text) + offset) =
      Text.byteSize (left.flatMap Piece.kept) + offset := by
  have hSplit : removalsOf 0 (left ++ p :: right) = removalsOf 0 left ++
      removalsOf (Text.byteSize (left.flatMap Piece.text) + Text.byteSize p.text) right := by
    rw [removalsOf_append, removalsOf, Piece.removals_of_not_isComment hp, Nat.zero_add,
      List.nil_append]
  rw [hSplit] at hCovers ⊢
  have hPassed : ∀ e ∈ removalsOf 0 left,
      decide (e.span.stop ≤ Text.byteSize (left.flatMap Piece.text) + offset) = true := by
    intro e he
    have hWithin := within_of_mem_removalsOf he
    exact decide_eq_true (by omega)
  have hAhead : ∀ e ∈
      removalsOf (Text.byteSize (left.flatMap Piece.text) + Text.byteSize p.text) right,
      ¬ decide (e.span.stop ≤ Text.byteSize (left.flatMap Piece.text) + offset) = true := by
    intro e he
    have hWithin := within_of_mem_removalsOf he
    have hLt := hCovers e (List.mem_append_right _ he)
    rw [decide_eq_true_iff]
    omega
  obtain ⟨room, hText, hKept⟩ := exists_room 0 left
  rw [Edit.moved, List.filter_append, List.filter_eq_self.mpr hPassed,
    List.filter_eq_nil_iff.mpr hAhead, List.append_nil]
  omega

/-- Every byte belongs to a piece. -/
theorem exists_piece (h : offset < Text.byteSize (ps.flatMap Piece.text)) :
    ∃ left p right place, ps = left ++ p :: right ∧ place < Text.byteSize p.text ∧
      offset = Text.byteSize (left.flatMap Piece.text) + place := by
  induction ps generalizing offset with
  | nil => simp at h
  | cons p ps ih =>
      rw [List.flatMap_cons, Text.byteSize_append] at h
      by_cases hFirst : offset < Text.byteSize p.text
      · exact ⟨[], p, ps, offset, rfl, hFirst, (Nat.zero_add _).symm⟩
      · obtain ⟨left, q, right, place, rfl, hPlace, hOffset⟩ :=
          ih (show offset - Text.byteSize p.text < _ by omega)
        refine ⟨p :: left, q, right, place, rfl, hPlace, ?_⟩
        rw [List.flatMap_cons, Text.byteSize_append]
        omega

end Offsets

section Breaks

variable {p : Piece} {after cs : List Char} {ps : List Piece}

/-- Of a piece all line breaks are kept. -/
theorem Piece.Stands.count_kept (h : p.Stands after) : p.kept.count '\n' = p.text.count '\n' := by
  cases h with
  | line inside => simp [Piece.kept, Piece.text, List.count_eq_zero_of_not_mem inside]
  | block => simp [Piece.kept, Piece.text]
  | plain | closed | broken | ended | unclosed => rfl

theorem Layout.exists_stands (h : Layout cs ps) (hp : p ∈ ps) : ∃ after, p.Stands after := by
  induction h with
  | nil => cases hp
  | cons first _ ih =>
      rcases List.mem_cons.mp hp with rfl | hRest
      · exact ⟨_, first⟩
      · exact ih hRest

theorem count_flatMap_kept (h : ∀ p ∈ ps, ∃ after, p.Stands after) :
    (ps.flatMap Piece.kept).count '\n' = (ps.flatMap Piece.text).count '\n' := by
  rw [List.count_flatMap, List.count_flatMap]
  refine congrArg List.sum (List.map_congr_left fun p hp => ?_)
  obtain ⟨after, hStands⟩ := h p hp
  exact hStands.count_kept

end Breaks

/-- A text without its comments, on the lines of the text. What the removals do not cover is found where
they have moved it. -/
structure KeepsLines (text out : String) : Prop where
  ascending : ((removals text).map Edit.span).Pairwise Span.Before
  fits : ∀ e ∈ removals text, e.span.start < e.span.stop ∧ e.span.FitsIn text
  kept : ∃ ps, (∀ qs, Layout text.toList qs ↔ qs = ps) ∧ out.toList = ps.flatMap Piece.kept
  literals : ∀ left cs right, Layout text.toList (left ++ .literal cs :: right) →
    let start := Text.byteSize (left.flatMap Piece.text)
    Text.slice? out.toList (Edit.moved (removals text) start)
      (Edit.moved (removals text) (start + Text.byteSize cs)) = some cs
  breaks : out.toList.count '\n' = text.toList.count '\n'
  bytes : ∀ offset < Text.byteSize text.toList,
    (∀ e ∈ removals text, e.span.contains offset = false) →
      (Text.bytes out.toList)[Edit.moved (removals text) offset]? =
          (Text.bytes text.toList)[offset]? ∧
        Text.lineOf out.toList (Edit.moved (removals text) offset) = Text.lineOf text.toList offset
  positions : ∀ offset < Text.byteSize text.toList,
    (∀ e ∈ removals text, e.span.contains offset = false) →
      Text.isBoundary text.toList offset = true →
        ∃ p q, Position.at? text offset = some p ∧
          Position.at? out (Edit.moved (removals text) offset) = some q ∧ q.line = p.line

/-- Characters that a text and its result have in common, at places that the removals map to each
other. -/
structure Survive (text out : String) (before before' cs after after' : List Char) : Prop where
  text_eq : text.toList = before ++ (cs ++ after)
  out_eq : out.toList = before' ++ (cs ++ after')
  count_eq : before'.count '\n' = before.count '\n'
  moved_eq : ∀ place ≤ Text.byteSize cs,
    Edit.moved (removals text) (Text.byteSize before + place) = Text.byteSize before' + place

section Survive

variable {text out : String} {before before' cs after after' : List Char} {place : Nat}

/-- What survives is found again where it moved. -/
theorem Survive.slice (h : Survive text out before before' cs after after') :
    Text.slice? out.toList (Edit.moved (removals text) (Text.byteSize before))
      (Edit.moved (removals text) (Text.byteSize before + Text.byteSize cs)) = some cs := by
  have hStart := h.moved_eq 0 (Nat.zero_le _)
  rw [Nat.add_zero, Nat.add_zero] at hStart
  rw [hStart, h.moved_eq _ (Nat.le_refl _), h.out_eq, ← Text.byteSize_append, ← List.append_assoc]
  exact Text.slice?_append before' cs after'

theorem Survive.byte (h : Survive text out before before' cs after after')
    (hPlace : place < Text.byteSize cs) :
    (Text.bytes out.toList)[Edit.moved (removals text) (Text.byteSize before + place)]? =
      (Text.bytes text.toList)[Text.byteSize before + place]? := by
  rw [h.moved_eq _ hPlace.le, h.out_eq, h.text_eq, Text.getElem?_bytes_among hPlace,
    Text.getElem?_bytes_among hPlace]

/-- What survives stays on its line. -/
theorem Survive.line (h : Survive text out before before' cs after after')
    (hPlace : place ≤ Text.byteSize cs) :
    Text.lineOf out.toList (Edit.moved (removals text) (Text.byteSize before + place)) =
      Text.lineOf text.toList (Text.byteSize before + place) := by
  rw [h.moved_eq _ hPlace, h.out_eq, h.text_eq, Text.lineOf_among hPlace, Text.lineOf_among hPlace,
    h.count_eq]

theorem Survive.isBoundary (h : Survive text out before before' cs after after')
    (hPlace : place ≤ Text.byteSize cs) :
    Text.isBoundary out.toList (Edit.moved (removals text) (Text.byteSize before + place)) =
      Text.isBoundary text.toList (Text.byteSize before + place) := by
  rw [h.moved_eq _ hPlace, h.out_eq, h.text_eq, Text.isBoundary_among hPlace,
    Text.isBoundary_among hPlace]

/-- A piece that is no comment survives. -/
theorem survive_of_layout {left right : List Piece} {p : Piece} (hStrip : strip text = .ok out)
    (hLayout : Layout text.toList (left ++ p :: right)) (hp : p.isComment = false) :
    Survive text out (left.flatMap Piece.text) (left.flatMap Piece.kept) p.text
      (right.flatMap Piece.text) (right.flatMap Piece.kept) := by
  have hPieces : pieces text = left ++ p :: right := (layout_iff.mp hLayout).symm
  have hCover := removals_cover text
  rw [removals_eq, hPieces] at hCover
  refine ⟨?_, ?_, ?_, fun place hPlace => ?_⟩
  · rw [← text_pieces, hPieces, List.flatMap_append, List.flatMap_cons]
  · rw [toList_strip hStrip, hPieces, List.flatMap_append, List.flatMap_cons,
      Piece.kept_of_not_isComment hp]
  · exact count_flatMap_kept fun q hq => hLayout.exists_stands (List.mem_append_left _ hq)
  · rw [removals_eq, hPieces]
    exact moved_removalsOf hCover hp hPlace

/-- A byte that no removal covers is among characters that survive. -/
theorem exists_survive {offset : Nat} (hStrip : strip text = .ok out)
    (hOffset : offset < Text.byteSize text.toList)
    (hUncovered : ∀ e ∈ removals text, e.span.contains offset = false) :
    ∃ before before' cs after after' place, Survive text out before before' cs after after' ∧
      place < Text.byteSize cs ∧ offset = Text.byteSize before + place := by
  rw [← text_pieces] at hOffset
  obtain ⟨left, p, right, place, hPieces, hPlace, rfl⟩ := exists_piece hOffset
  rw [removals_eq, hPieces] at hUncovered
  have hp := not_isComment_of_uncovered hPlace hUncovered
  have hLayout : Layout text.toList (left ++ p :: right) := layout_iff.mpr hPieces.symm
  exact ⟨_, _, _, _, _, place, survive_of_layout hStrip hLayout hp, hPlace, rfl⟩

end Survive

/-- Every text can be stripped of its comments, and what is kept of it stays on its line. -/
theorem strip_keepsLines (text : String) : ∃ out, strip text = .ok out ∧ KeepsLines text out := by
  obtain ⟨out, hStrip⟩ := exists_strip text
  refine ⟨out, hStrip, removals_before text, ?_, ?_, ?_, ?_, ?_, ?_⟩
  · exact fun e he => ⟨removals_cover text e he, removals_fit text e he⟩
  · exact ⟨pieces text, fun qs => layout_iff, toList_strip hStrip⟩
  · exact fun left cs right hLayout => (survive_of_layout hStrip hLayout rfl).slice
  · have hLayout : Layout text.toList (pieces text) := layout_iff.mpr rfl
    rw [toList_strip hStrip, count_flatMap_kept fun p hp => hLayout.exists_stands hp,
      text_pieces]
  · intro offset hOffset hUncovered
    obtain ⟨_, _, _, _, _, place, hSurvive, hPlace, rfl⟩ := exists_survive hStrip hOffset hUncovered
    exact ⟨hSurvive.byte hPlace, hSurvive.line hPlace.le⟩
  · intro offset hOffset hUncovered hBoundary
    obtain ⟨_, _, _, _, _, place, hSurvive, hPlace, rfl⟩ := exists_survive hStrip hOffset hUncovered
    obtain ⟨p, hp, hLine⟩ := Text.exists_position hBoundary
    rw [← hSurvive.isBoundary hPlace.le] at hBoundary
    obtain ⟨q, hq, hLine'⟩ := Text.exists_position hBoundary
    exact ⟨p, q, hp, hq, by rw [hLine', hLine, hSurvive.line hPlace.le]⟩

/-- A text with an escape before a character of two bytes and with a comment over two lines. -/
def marked : String := "'\\é/*' /*\n*/ x"

theorem marked_kept :
    removals marked = [⟨⟨8, 13⟩, "\n"⟩] ∧
      Layout marked.toList [.literal "'\\é/*'".toList, .plain ' ', .block "/*\n*/".toList,
        .plain ' ', .plain 'x'] ∧
      Position.at? marked 14 = some ⟨2, 4⟩ ∧
      ∃ out, strip marked = .ok out ∧ Text.slice? out.toList 0 7 = some "'\\é/*'".toList ∧
        (Text.bytes out.toList)[10]? = some 120 ∧
        ∃ p, Position.at? out 10 = some p ∧ p.line = 2 := by
  have hRemovals : removals marked = [⟨⟨8, 13⟩, "\n"⟩] := by decide
  have hLayout : Layout marked.toList ([] ++ .literal "'\\é/*'".toList :: [.plain ' ',
      .block "/*\n*/".toList, .plain ' ', .plain 'x']) := layout_iff.mpr rfl
  have hUncovered : ∀ e ∈ removals marked, e.span.contains 14 = false := by
    rw [hRemovals]
    decide
  have hMoved : Edit.moved (removals marked) 14 = 10 := by decide
  obtain ⟨out, hStrip, hKeeps⟩ := strip_keepsLines marked
  have hLiteral := hKeeps.literals _ _ _ hLayout
  obtain ⟨hByte, -⟩ := hKeeps.bytes 14 (by decide) hUncovered
  obtain ⟨p, q, hp, hq, hLine⟩ := hKeeps.positions 14 (by decide) hUncovered (by decide)
  have hPlace : Position.at? marked 14 = some ⟨2, 4⟩ := by decide
  rw [hPlace] at hp
  rw [hMoved] at hByte hq
  refine ⟨hRemovals, hLayout, hPlace, out, hStrip, ?_, ?_, q, hq, ?_⟩
  · exact hLiteral
  · exact hByte
  · rw [hLine, ← Option.some.inj hp]

end Comment

end SolNorm
