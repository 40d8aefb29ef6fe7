import SolNorm.Text.Edit
import SolNorm.Proofs.Outcome

/-!
What a batch of edits makes of a text. A batch is applied from the back, and every edit is given by
offsets of the text before the batch. It comes to the same as going through the text once from its
start, where each edit is put in the place of the bytes that it covers, so the order in which the
edits were staged plays no part.
-/

namespace SolNorm

namespace Text

/-- A text can be cut at the ends of its first parts. -/
theorem isBoundary_iff {cs : List Char} {offset : Nat} :
    isBoundary cs offset = true ↔
      ∃ before after, cs = before ++ after ∧ byteSize before = offset := by
  unfold isBoundary
  constructor
  · intro h
    obtain ⟨⟨before, after⟩, hSplit⟩ := Option.isSome_iff_exists.mp h
    exact ⟨before, after, splitAt?_eq_some hSplit⟩
  · rintro ⟨before, after, rfl, rfl⟩
    simp [splitAt?_append]

theorem eq_nil_of_byteSize {cs : List Char} (h : byteSize cs = 0) : cs = [] := by
  cases cs with
  | nil => rfl
  | cons c cs =>
      have hPos := Char.utf8Size_pos c
      rw [byteSize_cons] at h
      omega

/-- Two boundaries have some characters between them. -/
theorem exists_middle {before after : List Char} {stop : Nat} (hLe : byteSize before ≤ stop)
    (hStop : isBoundary (before ++ after) stop = true) :
    ∃ middle rest, after = middle ++ rest ∧ byteSize (before ++ middle) = stop := by
  obtain ⟨upTo, rest, hUpTo, rfl⟩ := isBoundary_iff.mp hStop
  rcases List.append_eq_append_iff.mp hUpTo with ⟨middle, rfl, rfl⟩ | ⟨extra, rfl, rfl⟩
  · exact ⟨middle, rest, rfl, rfl⟩
  · have hExtra : extra = [] := by
      apply eq_nil_of_byteSize
      rw [byteSize_append] at hLe
      omega
    exact ⟨[], after, rfl, by simp [hExtra]⟩

theorem slice?_append (before middle after : List Char) :
    slice? (before ++ middle ++ after) (byteSize before) (byteSize (before ++ middle)) =
      some middle := by
  have hRest : byteSize (before ++ middle) - byteSize before = byteSize middle := by simp
  have hNot : ¬ byteSize (before ++ middle) < byteSize before := by simp
  rw [List.append_assoc, slice?, if_neg hNot]
  simp [splitAt?_append]

theorem eq_nil_of_slice? {cs gap : List Char} {offset : Nat}
    (h : slice? cs offset offset = some gap) : gap = [] := by
  simp only [slice?, Nat.lt_irrefl, if_false, Nat.sub_self, splitAt?_zero] at h
  cases hSplit : splitAt? cs offset with
  | none => simp [hSplit] at h
  | some parts => simpa [hSplit] using h.symm

theorem replaceRange_append (before middle after new : List Char) :
    replaceRange (before ++ middle ++ after) (byteSize before) (byteSize (before ++ middle)) new =
      before ++ new ++ after := by
  have hRest : byteSize (before ++ middle) - byteSize before = byteSize middle := by simp
  rw [List.append_assoc, replaceRange]
  simp only [splitAt?_append, hRest]

end Text

namespace Edit

/-- The order of edits from left to right: by their start, then by their end. -/
def inOrder (a b : Edit) : Bool :=
  a.span.start < b.span.start || (a.span.start == b.span.start && a.span.stop ≤ b.span.stop)

/-- The bytes of an edit can be cut out of a text. -/
def FitsIn (cs : List Char) (e : Edit) : Prop :=
  e.span.start ≤ e.span.stop ∧ Text.isBoundary cs e.span.start = true ∧
    Text.isBoundary cs e.span.stop = true

/-- Each of several edits fits the text that the edits before it have left. -/
def FitInTurn : List Char → List Edit → Prop
  | _, [] => True
  | cs, e :: rest => e.FitsIn cs ∧ FitInTurn (e.apply cs) rest

/-- The part of a text between two offsets with edits put in from left to right: the gap before an
edit is kept, then comes its replacement, and the text goes on where the edit stops. -/
def splice? (cs : List Char) (stop : Nat) : Nat → List Edit → Option (List Char)
  | start, [] => Text.slice? cs start stop
  | start, e :: rest => do
    let gap ← Text.slice? cs start e.span.start
    let tail ← splice? cs stop e.span.stop rest
    return gap ++ e.replacement.toList ++ tail

/-- Among edits that are put into a text, the replacements of two stand next to each other. What is
before them and after them comes from the other edits alone. -/
def Adjacent (cs : List Char) (edits : List Edit) (first second : Edit) (result : List Char) :
    Prop :=
  ∃ left right head tail, edits = left ++ first :: second :: right ∧
    splice? cs first.span.start 0 left = some head ∧
    splice? cs (Text.byteSize cs) second.span.stop right = some tail ∧
    result = head ++ first.replacement.toList ++ second.replacement.toList ++ tail

/-- Two edits that can be in one batch. -/
def Apart (a b : Edit) : Prop := a.overlaps b.span = false

theorem Apart.symm {a b : Edit} (h : a.Apart b) : b.Apart a := by
  unfold Apart overlaps at *
  rw [Bool.and_comm b.span.isEmpty, Bool.and_comm (decide (b.span.start < _)),
    BEq.comm (a := b.span.start)]
  exact h

/-- Edits are apart exactly when one of them stops before the other starts and they do not cover the
same bytes. The latter counts for insertions at one point only. -/
theorem apart_iff {a b : Edit} (hb : b.span.start ≤ b.span.stop) :
    a.Apart b ↔ (a.span.stop ≤ b.span.start ∨ b.span.stop ≤ a.span.start) ∧
      ¬ (a.span.start = b.span.start ∧ a.span.stop = b.span.stop) := by
  unfold Apart overlaps Span.isEmpty
  split <;> rename_i hEmpty <;>
    simp only [Bool.and_eq_true, beq_iff_eq, Bool.and_eq_false_iff, decide_eq_false_iff_not,
      beq_eq_false_iff_ne] at hEmpty ⊢ <;> omega

theorem inOrder_trans (a b c : Edit) (hab : a.inOrder b = true) (hbc : b.inOrder c = true) :
    a.inOrder c = true := by
  simp only [inOrder, Bool.or_eq_true, Bool.and_eq_true, decide_eq_true_eq, beq_iff_eq] at *
  omega

theorem inOrder_total (a b : Edit) : (a.inOrder b || b.inOrder a) = true := by
  simp only [inOrder, Bool.or_eq_true, Bool.and_eq_true, decide_eq_true_eq, beq_iff_eq]
  omega

theorem appliedBefore_eq (a b : Edit) : a.appliedBefore b = b.inOrder a := by
  rw [appliedBefore, inOrder, BEq.comm (a := a.span.start)]

/-- Of two edits in order, the first ends before the second starts. -/
theorem stop_le_start {a b : Edit} (hOrder : a.inOrder b = true) (hApart : a.Apart b)
    (ha : a.span.start ≤ a.span.stop) (hb : b.span.start ≤ b.span.stop) :
    a.span.stop ≤ b.span.start := by
  rw [apart_iff hb] at hApart
  simp only [inOrder, Bool.or_eq_true, Bool.and_eq_true, decide_eq_true_eq, beq_iff_eq] at hOrder
  omega

/-- The step: one more edit, which has to fit what the others left. -/
theorem fitInTurn_append {cs : List Char} {done : List Edit} {e : Edit} :
    FitInTurn cs (done ++ [e]) ↔ FitInTurn cs done ∧ e.FitsIn (done.foldl apply cs) := by
  induction done generalizing cs with
  | nil => simp [FitInTurn]
  | cons first rest ih => simp [FitInTurn, ih, and_assoc]

/-- To splice in a list of edits is to splice in what is on both sides of one of them. -/
theorem splice?_append {cs : List Char} {start stop : Nat} {left right : List Edit} {e : Edit} :
    splice? cs stop start (left ++ e :: right) = do
      let head ← splice? cs e.span.start start left
      let tail ← splice? cs stop e.span.stop right
      return head ++ e.replacement.toList ++ tail := by
  induction left generalizing start with
  | nil => rfl
  | cons first rest ih =>
      simp only [List.cons_append, splice?, ih]
      cases Text.slice? cs start first.span.start <;> simp [Option.bind_assoc]

/-- The run of a batch. Edits that follow each other from left to right, all of them behind a first
part of the text, are applied from the last to the first. Each of them fits when its turn comes, and
in the end the first part is as it was, with the edits put into the rest. -/
theorem foldl_apply_reverse {before after : List Char} {edits : List Edit}
    (hOrder : edits.Pairwise fun a b => a.span.stop ≤ b.span.start)
    (hFits : ∀ e ∈ edits, e.FitsIn (before ++ after))
    (hBehind : ∀ e ∈ edits, Text.byteSize before ≤ e.span.start) :
    ∃ result, edits.reverse.foldl apply (before ++ after) = before ++ result ∧
      splice? (before ++ after) (Text.byteSize (before ++ after)) (Text.byteSize before) edits =
        some result ∧
      FitInTurn (before ++ after) edits.reverse := by
  induction edits generalizing before after with
  | nil =>
      refine ⟨after, rfl, ?_, trivial⟩
      have hSlice := Text.slice?_append before after []
      rwa [List.append_nil] at hSlice
  | cons e rest ih =>
      obtain ⟨hNext, hRest⟩ := List.pairwise_cons.mp hOrder
      obtain ⟨hFit, hFits⟩ := List.forall_mem_cons.mp hFits
      obtain ⟨hLe, hStart, hStop⟩ := hFit
      -- Cut the text at the start and at the end of the first edit. The other edits are behind both
      -- cuts, so the first edit finds its bytes where they were.
      obtain ⟨gap, fromStart, rfl, hGap⟩ :=
        Text.exists_middle (hBehind e List.mem_cons_self) hStart
      rw [← List.append_assoc] at hStop hFits ⊢
      obtain ⟨covered, behind, rfl, hCovered⟩ :=
        Text.exists_middle (by rw [hGap]; exact hLe) hStop
      rw [← List.append_assoc] at hFits ⊢
      obtain ⟨tail, hRun, hTail, hTurns⟩ := ih hRest hFits
        (fun other hOther => by rw [hCovered]; exact hNext other hOther)
      have hLast : e.FitsIn (before ++ gap ++ covered ++ tail) := by
        refine ⟨hLe, Text.isBoundary_iff.mpr ⟨before ++ gap, covered ++ tail, by simp, hGap⟩, ?_⟩
        exact Text.isBoundary_iff.mpr ⟨before ++ gap ++ covered, tail, rfl, hCovered⟩
      refine ⟨gap ++ e.replacement.toList ++ tail, ?_, ?_, ?_⟩
      · rw [List.reverse_cons, List.foldl_append, hRun, List.foldl_cons, List.foldl_nil, apply,
          ← hGap, ← hCovered, Text.replaceRange_append]
        simp
      · have hSlice := Text.slice?_append before gap (covered ++ behind)
        rw [hGap, ← List.append_assoc] at hSlice
        rw [hCovered] at hTail
        rw [splice?, hSlice, hTail]
        rfl
      · rw [List.reverse_cons, fitInTurn_append, hRun]
        exact ⟨hTurns, hLast⟩

/-- What can be said of the edits of one batch: none is reversed, and any two are apart. -/
structure Compatible (edits : List Edit) : Prop where
  forward : ∀ e ∈ edits, e.span.start ≤ e.span.stop
  apart : edits.Pairwise Apart

theorem compatible_nil : Compatible [] := ⟨by simp, .nil⟩

/-- The step: one more edit that is apart from the others. -/
theorem compatible_cons {e : Edit} {edits : List Edit} :
    Compatible (e :: edits) ↔
      e.span.start ≤ e.span.stop ∧ (∀ a ∈ edits, e.Apart a) ∧ Compatible edits := by
  constructor
  · rintro ⟨hForward, hApart⟩
    obtain ⟨hHead, hTail⟩ := List.pairwise_cons.mp hApart
    obtain ⟨hFirst, hRest⟩ := List.forall_mem_cons.mp hForward
    exact ⟨hFirst, hHead, hRest, hTail⟩
  · rintro ⟨hFirst, hHead, hRest, hTail⟩
    exact ⟨List.forall_mem_cons.mpr ⟨hFirst, hRest⟩, List.pairwise_cons.mpr ⟨hHead, hTail⟩⟩

namespace Compatible

variable {edits : List Edit}

theorem perm {other : List Edit} (h : Compatible edits) (hPerm : other.Perm edits) :
    Compatible other :=
  ⟨fun e he => h.forward e (hPerm.mem_iff.mp he), (hPerm.pairwise_iff Apart.symm).mpr h.apart⟩

theorem append {others : List Edit} (h : Compatible edits) (hOthers : Compatible others)
    (hCross : ∀ a ∈ edits, ∀ e ∈ others, a.Apart e) : Compatible (edits ++ others) := by
  refine ⟨fun e he => ?_, List.pairwise_append.mpr ⟨h.apart, hOthers.apart, hCross⟩⟩
  rcases List.mem_append.mp he with he | he
  · exact h.forward e he
  · exact hOthers.forward e he

theorem eq_of_span {a b : Edit} (h : Compatible edits) (ha : a ∈ edits) (hb : b ∈ edits)
    (hSpan : a.span = b.span) : a = b := by
  have : Std.Symm Apart := ⟨fun _ _ => Apart.symm⟩
  by_contra hNe
  have hApart := h.apart.forall ha hb hNe
  rw [apart_iff (h.forward b hb), hSpan] at hApart
  exact hApart.2 ⟨rfl, rfl⟩

/-- There is only one way to put the edits of a batch into their order. -/
theorem eq_of_perm {other : List Edit} (h : Compatible edits) (hPerm : edits.Perm other)
    (hOrder : edits.Pairwise fun a b => a.inOrder b = true)
    (hOther : other.Pairwise fun a b => a.inOrder b = true) : edits = other := by
  refine hPerm.eq_of_pairwise ?_ hOrder hOther
  intro a b ha hb hab hba
  refine h.eq_of_span ha (hPerm.mem_iff.mpr hb) ?_
  simp only [inOrder, Bool.or_eq_true, Bool.and_eq_true, decide_eq_true_eq, beq_iff_eq] at hab hba
  obtain ⟨⟨_, _⟩, _⟩ := a
  obtain ⟨⟨_, _⟩, _⟩ := b
  simp only [Span.mk.injEq] at hab hba ⊢
  omega

/-- Edits have one order. -/
theorem mergeSort_eq {other : List Edit} (h : Compatible edits) (hPerm : other.Perm edits) :
    other.mergeSort inOrder = edits.mergeSort inOrder := by
  have hSort := (List.mergeSort_perm edits inOrder)
  refine ((h.perm hSort).eq_of_perm ?_ ?_ ?_).symm
  · exact hSort.trans (hPerm.symm.trans (List.mergeSort_perm other inOrder).symm)
  · exact List.pairwise_mergeSort inOrder_trans inOrder_total edits
  · exact List.pairwise_mergeSort inOrder_trans inOrder_total other

theorem mergeSort_appliedBefore (h : Compatible edits) :
    edits.mergeSort appliedBefore = (edits.mergeSort inOrder).reverse := by
  have hBack : (edits.mergeSort appliedBefore).Pairwise fun a b => b.inOrder a = true := by
    have hSorted : (edits.mergeSort appliedBefore).Pairwise fun a b => a.appliedBefore b = true := by
      apply List.pairwise_mergeSort
      · intro a b c hab hbc
        rw [appliedBefore_eq] at *
        exact inOrder_trans c b a hbc hab
      · intro a b
        rw [appliedBefore_eq, appliedBefore_eq]
        exact inOrder_total b a
    exact hSorted.imp fun hab => by rwa [appliedBefore_eq] at hab
  have hSort := List.mergeSort_perm edits inOrder
  have hPerm : (edits.mergeSort appliedBefore).reverse.Perm edits :=
    (List.reverse_perm _).trans (List.mergeSort_perm edits appliedBefore)
  rw [← List.reverse_eq_iff]
  exact (h.perm hPerm).eq_of_perm (hPerm.trans hSort.symm) (List.pairwise_reverse.mpr hBack)
    (List.pairwise_mergeSort inOrder_trans inOrder_total edits)

theorem pairwise_mergeSort (h : Compatible edits) :
    (edits.mergeSort inOrder).Pairwise fun a b => a.span.stop ≤ b.span.start := by
  have hSort := h.perm (List.mergeSort_perm edits inOrder)
  have hBoth := (List.pairwise_mergeSort inOrder_trans inOrder_total edits).and hSort.apart
  exact hBoth.imp_of_mem fun ha hb hab =>
    stop_le_start hab.1 hab.2 (hSort.forward _ ha) (hSort.forward _ hb)

/-- No edit of a batch comes between an insertion and an edit that it touches. -/
theorem exists_adjacent {sorted : List Edit} {first second : Edit} (h : Compatible sorted)
    (hOrder : sorted.Pairwise fun a b => a.span.stop ≤ b.span.start)
    (hFirst : first ∈ sorted) (hSecond : second ∈ sorted)
    (hMeet : first.span.stop = second.span.start)
    (hOne : ¬ (first.span.start = first.span.stop ↔ second.span.start = second.span.stop)) :
    ∃ left right, sorted = left ++ first :: second :: right := by
  have hForward := h.forward first hFirst
  have hForward' := h.forward second hSecond
  obtain ⟨left, rest, rfl⟩ := List.append_of_mem hFirst
  obtain ⟨_, hRest, hLeft⟩ := List.pairwise_append.mp hOrder
  have hBehind : second ∈ rest := by
    rcases List.mem_append.mp hSecond with hSecond | hSecond
    · have hStop := hLeft second hSecond first List.mem_cons_self
      omega
    · rcases List.mem_cons.mp hSecond with rfl | hSecond
      · exact absurd Iff.rfl hOne
      · exact hSecond
  obtain ⟨between, right, rfl⟩ := List.append_of_mem hBehind
  -- Whatever comes between the two is an insertion at the point where they touch, and so is one of
  -- the two themselves.
  cases between with
  | nil => exact ⟨left, right, rfl⟩
  | cons m between =>
      have hm := h.forward m (by simp)
      have hStart := (List.pairwise_cons.mp hRest).1 m (by simp)
      have hStop := (List.pairwise_cons.mp (List.pairwise_cons.mp hRest).2).1 second (by simp)
      obtain ⟨_, hApart, _⟩ := List.pairwise_append.mp h.apart
      have hFirstApart := (List.pairwise_cons.mp hApart).1 m (by simp)
      have hSecondApart :=
        (List.pairwise_cons.mp (List.pairwise_cons.mp hApart).2).1 second (by simp)
      rw [Edit.apart_iff hm] at hFirstApart
      rw [Edit.apart_iff hForward'] at hSecondApart
      omega

end Compatible

end Edit

namespace Batch

/-- An edit is staged if it does not go backwards and is apart from what is staged. -/
theorem stage_eq_ok_iff {b next : Batch} {e : Edit} :
    b.stage e.span e.replacement = .ok next ↔ e.span.start ≤ e.span.stop ∧
      (∀ a ∈ b.edits, a.Apart e) ∧ next = ⟨b.edits ++ [e]⟩ := by
  unfold stage
  by_cases hReversed : e.span.stop < e.span.start
  · rw [if_pos hReversed]
    simp
    omega
  · rw [if_neg hReversed]
    cases hFound : b.edits.find? fun a => a.overlaps e.span with
    | some existing =>
        have hOverlap : ¬ existing.Apart e := by simpa [Edit.Apart] using List.find?_some hFound
        simp only [reduceCtorEq, false_iff]
        rintro ⟨_, hApart, _⟩
        exact hOverlap (hApart existing (List.mem_of_find?_eq_some hFound))
    | none =>
        have hApart : ∀ a ∈ b.edits, a.Apart e := by simpa [Edit.Apart] using hFound
        have hForward : e.span.start ≤ e.span.stop := by omega
        simp only [Except.ok.injEq, hForward, true_and, eq_comm (a := next)]
        exact (and_iff_right hApart).symm

/-- The run: edits are staged if they are apart from each other and from what is staged. -/
theorem stageAll_eq_ok_iff {b next : Batch} {edits : List Edit} :
    b.stageAll edits = .ok next ↔ Edit.Compatible edits ∧
      (∀ a ∈ b.edits, ∀ e ∈ edits, a.Apart e) ∧ next = ⟨b.edits ++ edits⟩ := by
  induction edits generalizing b with
  | nil =>
      rw [stageAll, List.foldlM_nil, Outcome.pure_eq_ok_iff]
      simp [Edit.compatible_nil, eq_comm]
  | cons e rest ih =>
      rw [stageAll, List.foldlM_cons, Outcome.bind_eq_ok_iff]
      constructor
      · rintro ⟨middle, hStage, hRest⟩
        obtain ⟨hForward, hApart, rfl⟩ := stage_eq_ok_iff.mp hStage
        obtain ⟨hCompatible, hOld, rfl⟩ := ih.mp hRest
        refine ⟨Edit.compatible_cons.mpr ⟨hForward, fun a ha => hOld e (by simp) a ha, hCompatible⟩,
          ?_, by simp⟩
        intro a ha
        exact List.forall_mem_cons.mpr ⟨hApart a ha, hOld a (by simp [ha])⟩
      · rintro ⟨hCompatible, hOld, rfl⟩
        obtain ⟨hForward, hNew, hRest⟩ := Edit.compatible_cons.mp hCompatible
        refine ⟨⟨b.edits ++ [e]⟩, stage_eq_ok_iff.mpr ⟨hForward, ?_, rfl⟩, ih.mpr ⟨hRest, ?_, by simp⟩⟩
        · exact fun a ha => hOld a ha e List.mem_cons_self
        · intro a ha x hx
          rcases List.mem_append.mp ha with ha | ha
          · exact hOld a ha x (List.mem_cons_of_mem _ hx)
          · exact List.mem_singleton.mp ha ▸ hNew x hx

theorem stageAll_empty {edits : List Edit} {b : Batch} :
    Batch.empty.stageAll edits = .ok b ↔ Edit.Compatible edits ∧ b = ⟨edits⟩ := by
  simp [stageAll_eq_ok_iff, empty]

theorem fitsIn_of_fits {source : Source} {e : Edit} (hForward : e.span.start ≤ e.span.stop)
    (h : source.fits e = true) : e.FitsIn source.text.toList := by
  simp only [Source.fits, Bool.and_eq_true] at h
  exact ⟨hForward, h.1.2, h.2⟩

/-- A batch whose edits fit is committed. -/
theorem commit_of_fits {source : Source} {b : Batch}
    (hFits : ∀ e ∈ b.edits, source.fits e = true) :
    ∃ next, b.commit source = .ok next ∧ next.text.toList = b.applyTo source.text.toList := by
  unfold commit
  by_cases hEmpty : b.isEmpty = true
  · have hNil : b.edits = [] := by simpa [isEmpty] using hEmpty
    exact ⟨source, by rw [if_pos hEmpty], by simp [applyTo, hNil]⟩
  · have hNone : b.edits.find? (fun e => !source.fits e) = none := by simpa using hFits
    rw [if_neg hEmpty, hNone]
    exact ⟨_, rfl, by simp [Source.next]⟩

/-- The order in which edits were staged does not count. -/
theorem commit_perm {source : Source} {edits other : List Edit} (h : Edit.Compatible edits)
    (hPerm : other.Perm edits) (hFits : ∀ e ∈ edits, source.fits e = true) :
    commit ⟨other⟩ source = commit ⟨edits⟩ source := by
  have hNone : edits.find? (fun e => !source.fits e) = none := by simpa using hFits
  have hOther : other.find? (fun e => !source.fits e) = none := by
    simpa [hPerm.mem_iff] using hFits
  have hSort : other.mergeSort Edit.appliedBefore = edits.mergeSort Edit.appliedBefore := by
    rw [h.mergeSort_appliedBefore, (h.perm hPerm).mergeSort_appliedBefore, h.mergeSort_eq hPerm]
  have hEmpty : other.isEmpty = edits.isEmpty := hPerm.isEmpty_eq
  simp only [commit, isEmpty, applyTo, hNone, hOther, hSort, hEmpty]

/-- The run of a commit: edits that can be in one batch and fit the text are put into it. -/
theorem applyTo_eq_splice {source : Source} {edits : List Edit} (h : Edit.Compatible edits)
    (hFits : ∀ e ∈ edits, source.fits e = true) :
    Edit.FitInTurn source.text.toList (edits.mergeSort Edit.appliedBefore) ∧
      Edit.splice? source.text.toList source.size 0 (edits.mergeSort Edit.inOrder) =
        some (applyTo ⟨edits⟩ source.text.toList) := by
  have hSorted : ∀ e ∈ edits.mergeSort Edit.inOrder, e.FitsIn ([] ++ source.text.toList) := by
    intro e he
    rw [List.mem_mergeSort] at he
    exact fitsIn_of_fits (h.forward e he) (hFits e he)
  obtain ⟨result, hRun, hSplice, hTurns⟩ :=
    Edit.foldl_apply_reverse h.pairwise_mergeSort hSorted (by simp)
  rw [← h.mergeSort_appliedBefore] at hRun hTurns
  rw [applyTo, ← List.nil_append source.text.toList, hRun]
  exact ⟨hTurns, hSplice⟩

theorem adjacent_of_touch {source : Source} {edits : List Edit} {first second : Edit}
    (h : Edit.Compatible edits) (hFits : ∀ e ∈ edits, source.fits e = true)
    (hFirst : first ∈ edits) (hSecond : second ∈ edits)
    (hMeet : first.span.stop = second.span.start)
    (hOne : ¬ (first.span.start = first.span.stop ↔ second.span.start = second.span.stop)) :
    Edit.Adjacent source.text.toList (edits.mergeSort Edit.inOrder) first second
      (applyTo ⟨edits⟩ source.text.toList) := by
  obtain ⟨left, right, hSorted⟩ :=
    (h.perm (List.mergeSort_perm edits Edit.inOrder)).exists_adjacent h.pairwise_mergeSort
      (List.mem_mergeSort.mpr hFirst) (List.mem_mergeSort.mpr hSecond) hMeet hOne
  have hSplice := (applyTo_eq_splice h hFits).2
  rw [hSorted, Edit.splice?_append, Edit.splice?, hMeet] at hSplice
  simp only [Option.bind_eq_bind, Option.bind_eq_some_iff, Option.pure_def,
    Option.some.injEq] at hSplice
  obtain ⟨head, hHead, rest, ⟨gap, hGap, tail, hTail, rfl⟩, hResult⟩ := hSplice
  have hNoGap : gap = [] := Text.eq_nil_of_slice? hGap
  exact ⟨left, right, head, tail, hSorted, hHead, hTail, by simp [← hResult, hNoGap]⟩

/-- A batch that was accepted edit by edit and fits a source is applied as one pass from left to
right. No edit ever meets a text that it does not fit. In whatever order the same edits are staged,
they are accepted and give the same version. An insertion at the start of a replaced span comes
directly before the replacement, and one at its end directly after. -/
theorem commit_eq_splice {source : Source} {edits : List Edit} {b : Batch}
    (hStaged : Batch.empty.stageAll edits = .ok b)
    (hFits : ∀ e ∈ edits, source.fits e = true) :
    ∃ next, b.commit source = .ok next ∧
      Edit.FitInTurn source.text.toList (b.edits.mergeSort Edit.appliedBefore) ∧
      Edit.splice? source.text.toList source.size 0 (edits.mergeSort Edit.inOrder) =
        some next.text.toList ∧
      (∀ other : List Edit, other.Perm edits → ∃ b', Batch.empty.stageAll other = .ok b' ∧
        b'.commit source = .ok next) ∧
      ∀ insertion ∈ edits, ∀ replacement ∈ edits, insertion.span.isEmpty = true →
        replacement.span.isEmpty = false →
        (insertion.span.start = replacement.span.start →
          Edit.Adjacent source.text.toList (edits.mergeSort Edit.inOrder) insertion replacement
            next.text.toList) ∧
        (insertion.span.start = replacement.span.stop →
          Edit.Adjacent source.text.toList (edits.mergeSort Edit.inOrder) replacement insertion
            next.text.toList) := by
  obtain ⟨h, rfl⟩ := stageAll_empty.mp hStaged
  obtain ⟨next, hCommit, hText⟩ := commit_of_fits (b := ⟨edits⟩) hFits
  obtain ⟨hTurns, hSplice⟩ := applyTo_eq_splice h hFits
  refine ⟨next, hCommit, hTurns, hText ▸ hSplice, ?_, ?_⟩
  · intro other hPerm
    exact ⟨⟨other⟩, stageAll_empty.mpr ⟨h.perm hPerm, rfl⟩, (commit_perm h hPerm hFits).trans hCommit⟩
  · intro insertion hInsertion replacement hReplacement hEmpty hCovers
    simp only [Span.isEmpty, beq_iff_eq, beq_eq_false_iff_ne] at hEmpty hCovers
    rw [hText]
    refine ⟨fun hTouch => ?_, fun hTouch => ?_⟩
    · refine adjacent_of_touch h hFits hInsertion hReplacement (hEmpty.symm.trans hTouch) ?_
      exact fun hBoth => hCovers (hBoth.mp hEmpty)
    · refine adjacent_of_touch h hFits hReplacement hInsertion hTouch.symm ?_
      exact fun hBoth => hCovers (hBoth.mpr hEmpty)

/-- A replaced letter of two bytes with an insertion at each of its ends, where the one behind it
also stands at the start of a removed letter. -/
def touching : List Edit :=
  [⟨⟨3, 4⟩, ""⟩, ⟨⟨1, 3⟩, "Y"⟩, ⟨.point 3, "W"⟩, ⟨.point 1, "X"⟩]

/-- The touching edits are put in from left to right, whichever of them was staged first. -/
theorem touching_spliced :
    ∃ b next, Batch.empty.stageAll touching = .ok b ∧
      (∀ e ∈ touching, (Source.ofText "aéz").fits e = true) ∧
      b.commit (Source.ofText "aéz") = .ok next ∧ next.text = "aXYW" ∧
      (∀ other : List Edit, other.Perm touching →
        ∃ b', Batch.empty.stageAll other = .ok b' ∧ b'.commit (Source.ofText "aéz") = .ok next) ∧
      Edit.Adjacent "aéz".toList (touching.mergeSort Edit.inOrder) ⟨⟨1, 3⟩, "Y"⟩ ⟨.point 3, "W"⟩
        next.text.toList := by
  have hStaged : Batch.empty.stageAll touching = .ok ⟨touching⟩ := by rfl
  have hFits : ∀ e ∈ touching, (Source.ofText "aéz").fits e = true := by decide
  have hText : commit ⟨touching⟩ (Source.ofText "aéz") = .ok ⟨"aXYW", "aéz", 1⟩ := by cbv
  obtain ⟨next, hCommit, _, _, hAny, hTouch⟩ := commit_eq_splice hStaged hFits
  have hNext : next = ⟨"aXYW", "aéz", 1⟩ := Except.ok.inj (hCommit.symm.trans hText)
  refine ⟨_, next, hStaged, hFits, hCommit, by rw [hNext], hAny, ?_⟩
  exact (hTouch ⟨.point 3, "W"⟩ (by decide) ⟨⟨1, 3⟩, "Y"⟩ (by decide) rfl rfl).2 rfl

end Batch

end SolNorm
