import SolNorm.Proofs.Text.Splice

/-!
Edits that are given from left to right. They can always be in one batch, and applying the batch puts
them into the text in the order in which they are given.
-/

namespace SolNorm

namespace Span

/-- A span starts before another one, and it stops where the other starts or earlier. -/
def Before (a b : Span) : Prop := a.start < b.start ∧ a.stop ≤ b.start

/-- Two spans have no byte in common, and they are not the same point. -/
def Disjoint (a b : Span) : Prop := a.Before b ∨ b.Before a

/-- A span can be cut out of a text. -/
def FitsIn (s : Span) (text : String) : Prop :=
  s.start ≤ s.stop ∧ Text.isBoundary text.toList s.start = true ∧
    Text.isBoundary text.toList s.stop = true

instance : DecidableRel Before := fun _ _ => inferInstanceAs (Decidable (_ ∧ _))

instance : DecidableRel Disjoint := fun _ _ => inferInstanceAs (Decidable (_ ∨ _))

instance : DecidableRel FitsIn := fun _ _ => inferInstanceAs (Decidable (_ ∧ _))

end Span

theorem Text.le_byteSize_of_isBoundary {cs : List Char} {offset : Nat}
    (h : isBoundary cs offset = true) : offset ≤ byteSize cs := by
  obtain ⟨before, after, rfl, rfl⟩ := isBoundary_iff.mp h
  rw [byteSize_append]
  omega

theorem Source.fits_of_fitsIn {source : Source} {e : Edit} (h : e.span.FitsIn source.text) :
    source.fits e = true := by
  obtain ⟨_, hStart, hStop⟩ := h
  have hSize : e.span.stop ≤ source.size := Text.le_byteSize_of_isBoundary hStop
  simp [Source.fits, hSize, hStart, hStop]

namespace Edit

/-- Edits of bytes that are not shared can be staged together. -/
theorem apart_of_disjoint {a b : Edit} (hb : b.span.start ≤ b.span.stop)
    (h : a.span.Disjoint b.span) : a.Apart b := by
  rw [apart_iff hb]
  unfold Span.Disjoint Span.Before at h
  omega

theorem compatible_of_disjoint {edits : List Edit} {text : String}
    (hFits : ∀ e ∈ edits, e.span.FitsIn text)
    (h : (edits.map Edit.span).Pairwise Span.Disjoint) : Compatible edits := by
  refine ⟨fun e he => (hFits e he).1, ?_⟩
  apply (List.pairwise_map.mp h).imp_of_mem
  intro a b _ hb hApart
  exact apart_of_disjoint (hFits b hb).1 hApart

/-- Edits that follow each other can be staged together. -/
theorem compatible_of_before {edits : List Edit} {text : String}
    (hFits : ∀ e ∈ edits, e.span.FitsIn text)
    (h : (edits.map Edit.span).Pairwise Span.Before) : Compatible edits :=
  compatible_of_disjoint hFits (h.imp Or.inl)

theorem mergeSort_of_before {edits : List Edit} (h : (edits.map Edit.span).Pairwise Span.Before) :
    edits.mergeSort inOrder = edits := by
  apply List.mergeSort_of_pairwise
  apply (List.pairwise_map.mp h).imp
  intro a b hab
  simp [inOrder, hab.1]

/-- Edits from left to right, applied from the last to the first, are put into the text. -/
theorem splice?_of_before {text : String} {edits : List Edit}
    (hFits : ∀ e ∈ edits, e.span.FitsIn text)
    (h : (edits.map Edit.span).Pairwise Span.Before) :
    splice? text.toList (Text.byteSize text.toList) 0 edits =
      some (edits.reverse.foldl apply text.toList) := by
  have hOrder : edits.Pairwise fun a b => a.span.stop ≤ b.span.start :=
    (List.pairwise_map.mp h).imp fun hab => hab.2
  have hFits' : ∀ e ∈ edits, e.FitsIn ([] ++ text.toList) := fun e he => hFits e he
  obtain ⟨result, hRun, hSplice, _⟩ := foldl_apply_reverse hOrder hFits' (by simp)
  rw [List.nil_append, List.nil_append] at hRun
  rw [hRun]
  exact hSplice

end Edit

/-- Edits from left to right are accepted one after the other, and the batch puts them into the
source. -/
theorem Batch.commit_of_before {source : Source} {edits : List Edit}
    (hFits : ∀ e ∈ edits, e.span.FitsIn source.text)
    (h : (edits.map Edit.span).Pairwise Span.Before) :
    Batch.empty.stageAll edits = .ok ⟨edits⟩ ∧
      ∃ next, commit ⟨edits⟩ source = .ok next ∧
        Edit.splice? source.text.toList source.size 0 edits = some next.text.toList := by
  have hCompatible := Edit.compatible_of_before hFits h
  have hAll : ∀ e ∈ edits, source.fits e = true := fun e he => Source.fits_of_fitsIn (hFits e he)
  obtain ⟨next, hCommit, hText⟩ := commit_of_fits (b := ⟨edits⟩) hAll
  refine ⟨stageAll_empty.mpr ⟨hCompatible, rfl⟩, next, hCommit, ?_⟩
  rw [hText, ← (applyTo_eq_splice hCompatible hAll).2, Edit.mergeSort_of_before h]

end SolNorm
