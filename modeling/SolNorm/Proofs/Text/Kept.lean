import SolNorm.Proofs.Outline.Spans
import SolNorm.Proofs.Text.Lines
import SolNorm.Proofs.Text.Parts

/-!
What edits leave of a text. Edits that are put in from left to right move the bytes behind them and
leave them as they are, and a replacement is found as it was given where the bytes of its edit began.
-/

namespace SolNorm

namespace Text

theorem slice?_size {cs middle : List Char} {start stop : Nat}
    (h : slice? cs start stop = some middle) : start + byteSize middle = stop := by
  obtain ⟨before, after, -, rfl, rfl⟩ := slice?_eq_some_iff.mp h
  exact (byteSize_append before middle).symm

/-- A byte of a slice is a byte of the text. -/
theorem getElem?_bytes_slice {cs middle : List Char} {start stop offset : Nat}
    (h : slice? cs start stop = some middle) (hStart : start ≤ offset) (hStop : offset < stop) :
    (bytes middle)[offset - start]? = (bytes cs)[offset]? := by
  obtain ⟨before, after, rfl, rfl, rfl⟩ := slice?_eq_some_iff.mp h
  rw [byteSize_append] at hStop
  have hPlace : offset - byteSize before < byteSize middle := by omega
  rw [← getElem?_bytes_among hPlace before after, List.append_assoc, Nat.add_sub_cancel' hStart]

/-- A slice of the rest of a text is a slice of the text. -/
theorem slice?_behind {cs middle : List Char} {start stop : Nat}
    (h : slice? cs start stop = some middle) (before : List Char) :
    slice? (before ++ cs) (byteSize before + start) (byteSize before + stop) = some middle := by
  obtain ⟨front, after, rfl, rfl, rfl⟩ := slice?_eq_some_iff.mp h
  exact slice?_eq_some_iff.mpr ⟨before ++ front, after, by simp, by simp, by simp⟩

end Text

namespace Edit

open Text

variable {cs result : List Char} {start stop offset : Nat} {edits : List Edit}

/-- Edits that can be put into a region lie in it. -/
theorem within_of_splice? (h : splice? cs stop start edits = some result)
    (hCovers : ∀ e ∈ edits, e.span.start < e.span.stop) :
    start ≤ stop ∧ ∀ e ∈ edits, start ≤ e.span.start ∧ e.span.stop ≤ stop := by
  induction edits generalizing start result with
  | nil =>
      have hSize := slice?_size h
      exact ⟨by omega, by simp⟩
  | cons e rest ih =>
      obtain ⟨gap, tail, hGap, hTail, -⟩ := splice?_cons_iff.mp h
      obtain ⟨hFirst, hCovers⟩ := List.forall_mem_cons.mp hCovers
      obtain ⟨hStop, hRest⟩ := ih hTail hCovers
      have hSize := slice?_size hGap
      refine ⟨by omega, List.forall_mem_cons.mpr ⟨by omega, fun x hx => ?_⟩⟩
      have hx := hRest x hx
      omega

theorem taken_cons (e : Edit) (edits : List Edit) :
    taken (e :: edits) = e.span.length + taken edits := by
  simp [taken]

theorem given_cons (e : Edit) (edits : List Edit) :
    given (e :: edits) = byteSize e.replacement.toList + given edits := by
  simp [given]

/-- The sizes add up. -/
theorem size_of_splice? (h : splice? cs stop start edits = some result)
    (hCovers : ∀ e ∈ edits, e.span.start < e.span.stop) :
    start + byteSize result + taken edits = stop + given edits := by
  induction edits generalizing start result with
  | nil => exact slice?_size h
  | cons e rest ih =>
      obtain ⟨gap, tail, hGap, hTail, rfl⟩ := splice?_cons_iff.mp h
      obtain ⟨hFirst, hCovers⟩ := List.forall_mem_cons.mp hCovers
      have hSize := slice?_size hGap
      have hRest := ih hTail hCovers
      rw [taken_cons, given_cons, Span.length, byteSize_append, byteSize_append]
      omega

/-- The edits that stop before an offset. -/
def passed (edits : List Edit) (offset : Nat) : List Edit :=
  edits.filter fun e => e.span.stop ≤ offset

/-- An offset moves by what the edits before it take away and put in. -/
theorem moved_eq (edits : List Edit) (offset : Nat) :
    moved edits offset = offset - taken (passed edits offset) + given (passed edits offset) :=
  rfl

theorem passed_cons {e : Edit} (h : e.span.stop ≤ offset) :
    passed (e :: edits) offset = e :: passed edits offset :=
  List.filter_cons_of_pos (by simpa using h)

theorem passed_of_ahead (h : ∀ e ∈ edits, offset < e.span.stop) : passed edits offset = [] := by
  rw [passed, List.filter_eq_nil_iff]
  intro e he
  simpa using h e he

/-- Edits that are all ahead of an offset do not move it. -/
theorem moved_of_ahead (h : ∀ e ∈ edits, offset < e.span.stop) : moved edits offset = offset := by
  rw [moved_eq, passed_of_ahead h]
  rfl

/-- Where the first edit is ahead, all are. -/
theorem ahead_of_splice? {e : Edit} (h : splice? cs stop e.span.stop edits = some result)
    (hCovers : ∀ x ∈ edits, x.span.start < x.span.stop) (hAhead : offset < e.span.stop) :
    ∀ x ∈ e :: edits, offset < x.span.stop := by
  refine List.forall_mem_cons.mpr ⟨hAhead, fun x hx => ?_⟩
  have hWithin := (within_of_splice? h hCovers).2 x hx
  have hCover := hCovers x hx
  omega

/-- Edits before an offset do not take more than what is there. -/
theorem taken_passed_le (h : splice? cs stop start edits = some result)
    (hCovers : ∀ e ∈ edits, e.span.start < e.span.stop) (hStart : start ≤ offset) :
    start + taken (passed edits offset) ≤ offset := by
  induction edits generalizing start result with
  | nil => exact hStart
  | cons e rest ih =>
      obtain ⟨gap, tail, hGap, hTail, -⟩ := splice?_cons_iff.mp h
      obtain ⟨hFirst, hCovers⟩ := List.forall_mem_cons.mp hCovers
      have hSize := slice?_size hGap
      by_cases hPassed : e.span.stop ≤ offset
      · have hRest := ih hTail hCovers hPassed
        rw [passed_cons hPassed, taken_cons, Span.length]
        omega
      · -- The other edits are behind the first one, so none of them is passed either.
        rw [passed_of_ahead (ahead_of_splice? hTail hCovers (Nat.lt_of_not_le hPassed))]
        exact hStart

/-- The step: an edit that is passed moves what is behind it by the difference that it makes. -/
theorem moved_cons_of_passed {e : Edit} (h : splice? cs stop e.span.stop edits = some result)
    (hCover : e.span.start < e.span.stop) (hCovers : ∀ x ∈ edits, x.span.start < x.span.stop)
    (hPassed : e.span.stop ≤ offset) :
    e.span.stop ≤ moved edits offset ∧ moved (e :: edits) offset + e.span.stop =
      e.span.start + byteSize e.replacement.toList + moved edits offset := by
  have hTaken := taken_passed_le h hCovers hPassed
  rw [moved_eq, moved_eq, passed_cons hPassed, taken_cons, given_cons, Span.length]
  omega

/-- The run: a byte that no edit covers is found where the edits have moved it. -/
theorem bytes_of_splice? (h : splice? cs stop start edits = some result)
    (hCovers : ∀ e ∈ edits, e.span.start < e.span.stop) (hStart : start ≤ offset)
    (hStop : offset < stop) (hFree : ∀ e ∈ edits, e.span.contains offset = false) :
    (bytes result)[moved edits offset - start]? = (bytes cs)[offset]? := by
  induction edits generalizing start result with
  | nil => exact getElem?_bytes_slice h hStart hStop
  | cons e rest ih =>
      obtain ⟨gap, tail, hGap, hTail, rfl⟩ := splice?_cons_iff.mp h
      obtain ⟨hFirst, hCovers⟩ := List.forall_mem_cons.mp hCovers
      obtain ⟨hHere, hFree⟩ := List.forall_mem_cons.mp hFree
      have hSize := slice?_size hGap
      simp only [Span.contains, Bool.and_eq_false_iff, decide_eq_false_iff_not] at hHere
      by_cases hPassed : e.span.stop ≤ offset
      · obtain ⟨hLe, hMoved⟩ := moved_cons_of_passed hTail hFirst hCovers hPassed
        have hPlace : moved (e :: rest) offset - start =
            byteSize (gap ++ e.replacement.toList) + (moved rest offset - e.span.stop) := by
          rw [byteSize_append]
          omega
        rw [hPlace, bytes_append, ← length_bytes, List.getElem?_append_right (Nat.le_add_right _ _),
          Nat.add_sub_cancel_left]
        exact ih hTail hCovers hPassed hFree
      · have hAhead := ahead_of_splice? hTail hCovers (Nat.lt_of_not_le hPassed)
        have hInGap : offset - start < (bytes gap).length := by
          rw [length_bytes]
          omega
        rw [moved_of_ahead hAhead, List.append_assoc, bytes_append,
          List.getElem?_append_left hInGap]
        exact getElem?_bytes_slice hGap hStart (by omega)

/-- The run: a replacement is found where the edits before it have moved the start of its edit. -/
theorem slice?_of_splice? {e : Edit} (h : splice? cs stop start edits = some result)
    (hCovers : ∀ x ∈ edits, x.span.start < x.span.stop) (he : e ∈ edits) :
    let place := moved edits e.span.start - start
    slice? result place (place + byteSize e.replacement.toList) = some e.replacement.toList := by
  intro place
  induction edits generalizing start result with
  | nil => cases he
  | cons x rest ih =>
      obtain ⟨gap, tail, hGap, hTail, rfl⟩ := splice?_cons_iff.mp h
      obtain ⟨hFirst, hOthers⟩ := List.forall_mem_cons.mp hCovers
      have hSize := slice?_size hGap
      rcases List.mem_cons.mp he with rfl | hRest
      · have hPlace : place = byteSize gap := by
          show moved (e :: rest) e.span.start - start = byteSize gap
          rw [moved_of_ahead (ahead_of_splice? hTail hOthers hFirst)]
          omega
        rw [hPlace, ← byteSize_append]
        exact slice?_append gap e.replacement.toList tail
      · have hBehind := (within_of_splice? hTail hOthers).2 e hRest
        obtain ⟨hLe, hMoved⟩ := moved_cons_of_passed hTail hFirst hOthers hBehind.1
        have hPlace : place =
            byteSize (gap ++ x.replacement.toList) + (moved rest e.span.start - x.span.stop) := by
          show moved (x :: rest) e.span.start - start = _
          rw [byteSize_append]
          omega
        rw [hPlace, Nat.add_assoc]
        exact slice?_behind (ih hTail hOthers hRest) _

/-- A text into which edits were put. What they do not cover is kept and moved by the edits before it,
the replacements stand in it as they were given, and there is nothing else. -/
structure PutInto (edits : List Edit) (text out : String) : Prop where
  kept : ∀ offset < byteSize text.toList, (∀ e ∈ edits, e.span.contains offset = false) →
    (bytes out.toList)[moved edits offset]? = (bytes text.toList)[offset]?
  replaced : ∀ e ∈ edits, slice? out.toList (moved edits e.span.start)
    (moved edits e.span.start + byteSize e.replacement.toList) = some e.replacement.toList
  size : byteSize out.toList + taken edits = byteSize text.toList + given edits

/-- A text that edits were spliced into has each of them in its place, and all bytes that they do
not cover. -/
theorem putInto_of_splice? {text out : String}
    (h : splice? text.toList (byteSize text.toList) 0 edits = some out.toList)
    (hCovers : ∀ e ∈ edits, e.span.start < e.span.stop) : PutInto edits text out where
  kept offset hOffset hFree := bytes_of_splice? h hCovers (Nat.zero_le _) hOffset hFree
  replaced e he := slice?_of_splice? h hCovers he
  size := by
    have hSize := size_of_splice? h hCovers
    rwa [Nat.zero_add] at hSize

end Edit

end SolNorm
