import SolNorm.Proofs.Outline.Spans

/-!
What edits leave of a part of a text. Where no edit crosses the ends of a span, the text before the
span, the span and the text behind it are edited on their own, and the results stand side by side. A
span that no edit meets is left as it is.
-/

namespace SolNorm

/-- A slice is cut in two where the text can be cut. -/
theorem Text.slice?_cut {cs whole : List Char} {a b c : Nat} (h : slice? cs a c = some whole)
    (hFirst : a ≤ b) (hSecond : b ≤ c) (hCut : isBoundary cs b = true) :
    ∃ left right, slice? cs a b = some left ∧ slice? cs b c = some right ∧
      whole = left ++ right := by
  obtain ⟨before, after, rfl, rfl, rfl⟩ := slice?_eq_some_iff.mp h
  rw [List.append_assoc] at hCut
  obtain ⟨left, rest, hRest, rfl⟩ := exists_middle hFirst hCut
  have hParts : ∃ right, whole = left ++ right := by
    rcases List.append_eq_append_iff.mp hRest with ⟨extra, rfl, _⟩ | ⟨right, rfl, _⟩
    · have hNil : extra = [] := by
        apply eq_nil_of_byteSize
        simp only [byteSize_append] at hSecond
        omega
      exact ⟨[], by simp [hNil]⟩
    · exact ⟨right, rfl⟩
  obtain ⟨right, rfl⟩ := hParts
  refine ⟨left, right, ?_, ?_, rfl⟩
  · exact slice?_eq_some_iff.mpr ⟨before, right ++ after, by simp, rfl, rfl⟩
  · exact slice?_eq_some_iff.mpr ⟨before ++ left, after, by simp, rfl, by simp⟩

namespace Edit

/-- The first of some edits has the text before it on one side and the other edits on the other. -/
theorem splice?_cons_iff {cs result : List Char} {start stop : Nat} {e : Edit} {rest : List Edit} :
    splice? cs stop start (e :: rest) = some result ↔
      ∃ gap tail, Text.slice? cs start e.span.start = some gap ∧
        splice? cs stop e.span.stop rest = some tail ∧
        gap ++ e.replacement.toList ++ tail = result := by
  simp only [splice?, Option.bind_eq_bind, Option.bind_eq_some_iff, Option.pure_def,
    Option.some.injEq, exists_and_left]

/-- Edits on the two sides of a place are put in one side after the other. -/
theorem splice?_cut {cs result : List Char} {start stop cut : Nat} {left right : List Edit}
    (h : splice? cs stop start (left ++ right) = some result) (hStart : start ≤ cut)
    (hStop : cut ≤ stop) (hLeft : ∀ e ∈ left, e.span.stop ≤ cut)
    (hRight : ∀ e ∈ right, cut ≤ e.span.start) (hCut : Text.isBoundary cs cut = true) :
    ∃ head tail, splice? cs cut start left = some head ∧ splice? cs stop cut right = some tail ∧
      result = head ++ tail := by
  induction left generalizing start result with
  | nil =>
      cases right with
      | nil => exact Text.slice?_cut h hStart hStop hCut
      | cons e rest =>
          obtain ⟨gap, tail, hGap, hTail, rfl⟩ := splice?_cons_iff.mp h
          obtain ⟨before, behind, hBefore, hBehind, rfl⟩ :=
            Text.slice?_cut hGap hStart (hRight e List.mem_cons_self) hCut
          exact ⟨before, behind ++ e.replacement.toList ++ tail, hBefore,
            splice?_cons_iff.mpr ⟨behind, tail, hBehind, hTail, rfl⟩, by simp⟩
  | cons e rest ih =>
      obtain ⟨gap, tail, hGap, hTail, rfl⟩ := splice?_cons_iff.mp h
      obtain ⟨hFirst, hRest⟩ := List.forall_mem_cons.mp hLeft
      obtain ⟨inner, behind, hInner, hBehind, rfl⟩ := ih hTail hFirst hRest
      exact ⟨gap ++ e.replacement.toList ++ inner, behind,
        splice?_cons_iff.mpr ⟨gap, inner, hGap, hInner, rfl⟩, hBehind, by simp⟩

/-- What edits leave of a span: the edits inside it are put into it, and the result stands between
what the other edits make of the text before the span and of the text behind it. -/
def Leaves (cs : List Char) (edits : List Edit) (s : Span) (part result : List Char) : Prop :=
  ∃ left inner right head tail, edits = left ++ inner ++ right ∧
    splice? cs s.start 0 left = some head ∧ splice? cs s.stop s.start inner = some part ∧
    splice? cs (Text.byteSize cs) s.stop right = some tail ∧ result = head ++ part ++ tail

section

variable {text : String} {s : Span} {edits : List Edit} {result : List Char}

/-- The step: edits that stand before a span, inside it and behind it. -/
theorem exists_leaves {left inner right : List Edit} (hs : s.FitsIn text)
    (h : splice? text.toList (Text.byteSize text.toList) 0 (left ++ inner ++ right) = some result)
    (hLeft : ∀ e ∈ left, e.span.stop ≤ s.start)
    (hInner : ∀ e ∈ inner, s.start ≤ e.span.start ∧ e.span.stop ≤ s.stop)
    (hRight : ∀ e ∈ right, s.stop ≤ e.span.start) :
    ∃ part, splice? text.toList s.stop s.start inner = some part ∧
      Leaves text.toList (left ++ inner ++ right) s part result := by
  obtain ⟨hForward, hStart, hStop⟩ := hs
  have hUpTo : ∀ e ∈ left ++ inner, e.span.stop ≤ s.stop := by
    intro e he
    rcases List.mem_append.mp he with he | he
    · exact (hLeft e he).trans hForward
    · exact (hInner e he).2
  obtain ⟨upTo, tail, hBefore, hTail, rfl⟩ :=
    splice?_cut h (Nat.zero_le _) (Text.le_byteSize_of_isBoundary hStop) hUpTo hRight hStop
  obtain ⟨head, part, hHead, hPart, rfl⟩ :=
    splice?_cut hBefore (Nat.zero_le _) hForward hLeft (fun e he => (hInner e he).1) hStart
  exact ⟨part, hPart, left, inner, right, head, tail, rfl, hHead, hPart, hTail, rfl⟩

/-- Edits in their order stand on two sides of a span that none of them meets. -/
theorem exists_sides (hOrder : edits.Pairwise fun a b => a.span.stop ≤ b.span.start)
    (hForward : ∀ e ∈ edits, e.span.start ≤ e.span.stop)
    (hApart : ∀ e ∈ edits, e.span.stop ≤ s.start ∨ s.stop ≤ e.span.start) :
    ∃ left right, edits = left ++ right ∧ (∀ e ∈ left, e.span.stop ≤ s.start) ∧
      ∀ e ∈ right, s.stop ≤ e.span.start := by
  induction edits with
  | nil => exact ⟨[], [], rfl, by simp, by simp⟩
  | cons e rest ih =>
      obtain ⟨hNext, hRest⟩ := List.pairwise_cons.mp hOrder
      obtain ⟨hFirst, hForward⟩ := List.forall_mem_cons.mp hForward
      obtain ⟨hSide, hApart⟩ := List.forall_mem_cons.mp hApart
      rcases hSide with hBefore | hBehind
      · obtain ⟨left, right, rfl, hLeft, hRight⟩ := ih hRest hForward hApart
        exact ⟨e :: left, right, rfl, List.forall_mem_cons.mpr ⟨hBefore, hLeft⟩, hRight⟩
      · refine ⟨[], e :: rest, rfl, by simp, List.forall_mem_cons.mpr ⟨hBehind, fun x hx => ?_⟩⟩
        exact hBehind.trans (hFirst.trans (hNext x hx))

/-- A span that no edit meets is left as it is. -/
theorem leaves_slice (hEdits : Compatible edits) (hs : s.FitsIn text)
    (h : splice? text.toList (Text.byteSize text.toList) 0 (edits.mergeSort inOrder) = some result)
    (hApart : ∀ e ∈ edits, e.span.stop ≤ s.start ∨ s.stop ≤ e.span.start) :
    Leaves text.toList (edits.mergeSort inOrder) s (s.slice text).toList result := by
  obtain ⟨left, right, hSorted, hLeft, hRight⟩ := exists_sides hEdits.pairwise_mergeSort
    (fun e he => hEdits.forward e (List.mem_mergeSort.mp he))
    fun e he => hApart e (List.mem_mergeSort.mp he)
  rw [hSorted, ← List.append_nil left] at h ⊢
  obtain ⟨part, hPart, hLeaves⟩ := exists_leaves hs h hLeft (by simp) hRight
  have hSlice : s.slice text = String.ofList part := by
    rw [Span.slice, Span.slice?, show Text.slice? text.toList s.start s.stop = some part from hPart]
    rfl
  rw [hSlice, String.toList_ofList]
  exact hLeaves

/-- The other edits of a batch stand on the two sides of an edit. -/
theorem exists_around {e : Edit} (hEdits : Compatible edits) (he : e ∈ edits) :
    ∃ left right, edits.mergeSort inOrder = left ++ [e] ++ right ∧
      (∀ a ∈ left, a ∈ edits ∧ a.span.stop ≤ e.span.start) ∧
      ∀ a ∈ right, a ∈ edits ∧ e.span.stop ≤ a.span.start := by
  have hSome : e ∈ edits.mergeSort inOrder := List.mem_mergeSort.mpr he
  obtain ⟨left, right, hSorted⟩ := List.append_of_mem hSome
  have hOrder := hEdits.pairwise_mergeSort
  rw [hSorted] at hOrder
  obtain ⟨_, hTail, hCross⟩ := List.pairwise_append.mp hOrder
  have hMem {a : Edit} (ha : a ∈ left ++ e :: right) : a ∈ edits := by
    rw [← hSorted] at ha
    exact List.mem_mergeSort.mp ha
  refine ⟨left, right, by simp [hSorted], fun a ha => ?_, fun a ha => ?_⟩
  · exact ⟨hMem (List.mem_append_left _ ha), hCross a ha e List.mem_cons_self⟩
  · exact ⟨hMem (List.mem_append_right _ (List.mem_cons_of_mem _ ha)),
      (List.pairwise_cons.mp hTail).1 a ha⟩

/-- A span that one edit lies in and no other edit meets has the replacement in it. -/
theorem leaves_replaced {e : Edit} (hEdits : Compatible edits) (hs : s.FitsIn text) (he : e ∈ edits)
    (h : splice? text.toList (Text.byteSize text.toList) 0 (edits.mergeSort inOrder) = some result)
    (hIn : s.start ≤ e.span.start ∧ e.span.start < e.span.stop ∧ e.span.stop ≤ s.stop)
    (hApart : ∀ a ∈ edits, a = e ∨ a.span.stop ≤ s.start ∨ s.stop ≤ a.span.start) :
    Leaves text.toList (edits.mergeSort inOrder) s
      ((Span.mk s.start e.span.start).slice text ++ e.replacement ++
        (Span.mk e.span.stop s.stop).slice text).toList result := by
  obtain ⟨left, right, hSorted, hBefore, hBehind⟩ := exists_around hEdits he
  have hLeft : ∀ a ∈ left, a.span.stop ≤ s.start := by
    intro a ha
    obtain ⟨hEdit, hStop⟩ := hBefore a ha
    have hForward := hEdits.forward a hEdit
    rcases hApart a hEdit with rfl | hSide | hSide <;> omega
  have hRight : ∀ a ∈ right, s.stop ≤ a.span.start := by
    intro a ha
    obtain ⟨hEdit, hStart⟩ := hBehind a ha
    have hForward := hEdits.forward a hEdit
    rcases hApart a hEdit with rfl | hSide | hSide <;> omega
  rw [hSorted] at h ⊢
  obtain ⟨part, hPart, hLeaves⟩ := exists_leaves hs h hLeft
    (by simpa using ⟨hIn.1, hIn.2.2⟩) hRight
  obtain ⟨gap, rest, hGap, hRest, rfl⟩ := splice?_cons_iff.mp hPart
  rw [splice?] at hRest
  have hSlices : (Span.mk s.start e.span.start).slice text = String.ofList gap ∧
      (Span.mk e.span.stop s.stop).slice text = String.ofList rest := by
    simp [Span.slice, Span.slice?, hGap, hRest]
  simpa [hSlices.1, hSlices.2] using hLeaves

/-- In the place of the bytes that an edit covers stands its replacement. -/
theorem leaves_replacement {e : Edit} (hEdits : Compatible edits) (he : e ∈ edits)
    (hFits : e.span.FitsIn text)
    (h : splice? text.toList (Text.byteSize text.toList) 0 (edits.mergeSort inOrder) = some result) :
    Leaves text.toList (edits.mergeSort inOrder) e.span e.replacement.toList result := by
  obtain ⟨left, right, hSorted, hBefore, hBehind⟩ := exists_around hEdits he
  rw [hSorted] at h ⊢
  obtain ⟨part, hPart, hLeaves⟩ := exists_leaves hFits h (fun a ha => (hBefore a ha).2) (by simp)
    fun a ha => (hBehind a ha).2
  obtain ⟨gap, rest, hGap, hRest, rfl⟩ := splice?_cons_iff.mp hPart
  rw [splice?] at hRest
  simpa [Text.eq_nil_of_slice? hGap, Text.eq_nil_of_slice? hRest] using hLeaves

end

end Edit

/-- Applying a batch puts its edits into the text from left to right. -/
theorem Batch.splice?_of_commit {b : Batch} {source next : Source}
    (hCompatible : Edit.Compatible b.edits) (h : b.commit source = .ok next) :
    Edit.splice? source.text.toList (Text.byteSize source.text.toList) 0
      (b.edits.mergeSort Edit.inOrder) = some next.text.toList := by
  have hFits : ∀ e ∈ b.edits, source.fits e = true := by
    unfold commit at h
    split at h
    · rename_i hEmpty
      simp [List.isEmpty_iff.mp hEmpty]
    · split at h
      · cases h
      · rename_i hNone
        simpa using hNone
  obtain ⟨found, hCommit, hText⟩ := commit_of_fits hFits
  obtain rfl := Except.ok.inj (hCommit.symm.trans h)
  rw [hText]
  exact (applyTo_eq_splice hCompatible hFits).2

end SolNorm
