import SolNorm.Proofs.Construction.Substitution
import SolNorm.Proofs.Text.Kept

/-!
Rendering an expression and editing its text. An expression is rendered in one pass from left to
right, in which names without a value are passed over; edits are staged one by one and applied from
the back. Both give the same text, as the edits are those of the names with a value.
-/

namespace SolNorm

namespace Span

variable {text piece : String} {s : Span} {a b : Nat}

theorem byteSize_slice (h : Span.FitsIn ⟨a, b⟩ text) :
    a + Text.byteSize (Span.slice ⟨a, b⟩ text).toList = b :=
  Text.slice?_size (slice?_eq_some_iff.mp (slice?_of_fitsIn h))

/-- What is covered inside of a span is found in the slice of the span. -/
theorem slice?_inside (hPiece : s.slice? text = some piece) (hStart : s.start ≤ a)
    (hStop : b ≤ s.stop) (h : Span.FitsIn ⟨a, b⟩ text) :
    Span.slice? ⟨a - s.start, b - s.start⟩ piece = some (Span.slice ⟨a, b⟩ text) := by
  have hOuter := fitsIn_of_slice? hPiece
  have hBefore : Span.FitsIn ⟨s.start, a⟩ text := ⟨hStart, hOuter.2.1, h.2.1⟩
  have hAfter : Span.FitsIn ⟨b, s.stop⟩ text := ⟨hStop, h.2.2, hOuter.2.2⟩
  have hRest : Span.FitsIn ⟨a, s.stop⟩ text := ⟨h.1.trans hStop, h.2.1, hOuter.2.2⟩
  -- The slice of the outer span is what stands before, inside and behind the inner one.
  have hParts : piece = Span.slice ⟨s.start, a⟩ text ++ (Span.slice ⟨a, b⟩ text ++
      Span.slice ⟨b, s.stop⟩ text) := by
    obtain rfl : s.slice text = piece := by rw [slice, hPiece, Option.getD_some]
    rw [← slice_append h hAfter]
    exact slice_append hBefore hRest
  have hFront := byteSize_slice hBefore
  have hMiddle := byteSize_slice h
  rw [slice?_eq_some_iff, Text.slice?_eq_some_iff]
  refine ⟨(Span.slice ⟨s.start, a⟩ text).toList, (Span.slice ⟨b, s.stop⟩ text).toList, ?_, ?_, ?_⟩
  · rw [hParts, String.toList_append, String.toList_append, ← List.append_assoc]
  · exact Nat.sub_eq_of_eq_add' hFront.symm
  · rw [Text.byteSize_append]
    show b - s.start = _
    omega

end Span

namespace Construction

open Outline

/-- The edit of a text from an offset on that puts a value in the place of a name, if it has one. -/
def editAt? (values : String → Option String) (offset : Nat) (x : Ident) : Option Edit :=
  (values x.name).map fun value => ⟨⟨x.span.start - offset, x.span.stop - offset⟩, value⟩

/-- The edits of the text of an expression that put values in the place of the names it mentions. -/
def editsOf (values : String → Option String) (e : Expr) : List Edit :=
  e.idents.filterMap (editAt? values e.span.start)

/-- The run of rendering from a cursor on. What is rendered is what comes of the edits of the names that
are still to come. -/
theorem splice?_of_foldl {text piece : String} {values : String → Option String} {s : Span}
    (hPiece : s.slice? text = some piece) {idents : List Ident} {front : String} {cursor : Nat}
    (hStart : s.start ≤ cursor) (hCursor : Span.FitsIn ⟨cursor, s.stop⟩ text)
    (hIdents : Ascending Ident.span (fun x => x.span.FitsIn text) cursor s.stop idents) :
    ∃ result, Edit.splice? piece.toList (s.stop - s.start) (cursor - s.start)
        (idents.filterMap (editAt? values s.start)) = some result ∧
      withRest text s.stop (idents.foldl (renderStep text values) (front, cursor)) =
        front ++ String.ofList result := by
  induction idents generalizing front cursor with
  | nil =>
      have hSlice := Span.slice?_inside hPiece hStart le_rfl hCursor
      exact ⟨_, Span.slice?_eq_some_iff.mp hSlice, by simp [withRest]⟩
  | cons x rest ih =>
      obtain ⟨hFits, hCovers, hIn⟩ := hIdents.each x List.mem_cons_self
      rw [List.foldl_cons]
      cases hValue : values x.name with
      | none =>
          have hKept : renderStep text values (front, cursor) x = (front, cursor) := by
            rw [renderStep, hValue]
          have hNone : editAt? values s.start x = none := by
            rw [editAt?, hValue, Option.map_none]
          -- The cursor stays where it is, so the name is copied with what is around it.
          rw [hKept, List.filterMap_cons_none hNone]
          exact ih hStart hCursor (hIdents.tail.widen (hIn.1.trans hCovers.le) le_rfl)
      | some value =>
          have hPut : renderStep text values (front, cursor) x =
              (front ++ Span.slice ⟨cursor, x.span.start⟩ text ++ value, x.span.stop) := by
            rw [renderStep, hValue]
          have hEdit : editAt? values s.start x =
              some ⟨⟨x.span.start - s.start, x.span.stop - s.start⟩, value⟩ := by
            rw [editAt?, hValue, Option.map_some]
          have hGap := Span.slice?_inside hPiece hStart (hCovers.le.trans hIn.2)
            (⟨hIn.1, hCursor.2.1, hFits.2.1⟩ : Span.FitsIn ⟨cursor, x.span.start⟩ text)
          obtain ⟨tail, hTail, hRest⟩ := @ih
            (front ++ Span.slice ⟨cursor, x.span.start⟩ text ++ value) x.span.stop
            (hStart.trans (hIn.1.trans hCovers.le)) ⟨hIn.2, hFits.2.2, hCursor.2.2⟩ hIdents.tail
          rw [hPut, List.filterMap_cons_some hEdit, hRest, Edit.splice?,
            Span.slice?_eq_some_iff.mp hGap, hTail]
          exact ⟨_, rfl, by simp [String.append_assoc]⟩

section

variable {text piece : String} {e : Expr} (values : String → Option String)

/-- The edits of an expression are inside its text, from left to right. -/
theorem editsOf_ascending (hPiece : e.span.slice? text = some piece)
    (hIdents : Ascending Ident.span (fun x => x.span.FitsIn text) e.span.start e.span.stop e.idents) :
    (∀ a ∈ editsOf values e, a.span.start < a.span.stop ∧ a.span.FitsIn piece) ∧
      ((editsOf values e).map Edit.span).Pairwise Span.Before := by
  constructor
  · intro a ha
    obtain ⟨x, hx, hEdit⟩ := List.mem_filterMap.mp ha
    obtain ⟨value, -, rfl⟩ := Option.map_eq_some_iff.mp hEdit
    obtain ⟨hFits, hCovers, hIn⟩ := hIdents.each x hx
    have hSlice := Span.slice?_inside hPiece hIn.1 hIn.2 hFits
    refine ⟨?_, Span.fitsIn_of_slice? hSlice⟩
    have hLo := hIn.1
    show x.span.start - e.span.start < x.span.stop - e.span.start
    omega
  · rw [List.pairwise_map, editsOf, List.pairwise_filterMap]
    refine (List.pairwise_map.mp hIdents.before).imp_of_mem ?_
    intro x y hx hy hBefore a ha b hb
    obtain ⟨_, -, rfl⟩ := Option.map_eq_some_iff.mp ha
    obtain ⟨_, -, rfl⟩ := Option.map_eq_some_iff.mp hb
    have hLo := (hIdents.each x hx).2.2.1
    unfold Span.Before at hBefore ⊢
    simp only
    omega

/-- An expression is rendered as its text with edits put in. -/
theorem splice?_render (hPiece : e.span.slice? text = some piece)
    (hIdents : Ascending Ident.span (fun x => x.span.FitsIn text) e.span.start e.span.stop e.idents) :
    Edit.splice? piece.toList (Text.byteSize piece.toList) 0 (editsOf values e) =
      some (e.render text values).toList := by
  have hFits := Span.fitsIn_of_slice? hPiece
  have hSize := Text.slice?_size (Span.slice?_eq_some_iff.mp hPiece)
  obtain ⟨result, hSplice, hRender⟩ := @splice?_of_foldl text piece values e.span hPiece e.idents ""
    e.span.start le_rfl hFits hIdents
  rw [render_eq_withRest, hRender, String.empty_append, String.toList_ofList, ← hSplice,
    Nat.sub_self, ← hSize, Nat.add_sub_cancel_left]
  rfl

end

/-- Rendering an expression whose names are inside it from left to right gives what a batch gives that
replaces these names in the text of the expression. All other bytes are kept, what is put in is not
looked at again, and where no name has a value the text stays as it is. -/
theorem render_eq_commit {text piece : String} {e : Expr} (hPiece : e.span.slice? text = some piece)
    (hIdents : Ascending Ident.span (fun x => x.span.FitsIn text) e.span.start e.span.stop e.idents)
    (values : String → Option String) :
    let edits := editsOf values e
    let out := e.render text values
    (∃ b next, Batch.empty.stageAll edits = .ok b ∧ b.commit (.ofText piece) = .ok next ∧
        next.text = out) ∧
      Edit.PutInto edits piece out ∧
      ((∀ x ∈ e.idents, values x.name = none) → out = piece) := by
  intro edits out
  obtain ⟨hEdits, hBefore⟩ := editsOf_ascending values hPiece hIdents
  have hSplice := splice?_render values hPiece hIdents
  refine ⟨?_, ?_, ?_⟩
  · have hFits : ∀ a ∈ edits, a.span.FitsIn (Source.ofText piece).text := fun a ha => (hEdits a ha).2
    obtain ⟨hStaged, next, hCommit, hText⟩ := Batch.commit_of_before hFits hBefore
    have hSame : next.text.toList = out.toList := Option.some.inj (hText.symm.trans hSplice)
    exact ⟨⟨edits⟩, next, hStaged, hCommit, String.toList_injective hSame⟩
  · exact Edit.putInto_of_splice? hSplice fun a ha => (hEdits a ha).1
  · intro hNone
    show e.render text values = piece
    rw [render_of_none text e hNone, Span.slice, hPiece, Option.getD_some]

/-- An argument behind a character of two bytes, with a member that is spelled like a name. -/
def withMember : Expr :=
  ⟨.other, ⟨3, 13⟩, [⟨"x", ⟨3, 4⟩⟩, ⟨"f", ⟨9, 10⟩⟩, ⟨"x", ⟨11, 12⟩⟩]⟩

theorem withMember_rendered :
    let values := fun name => if name = "x" then some "é+x" else none
    withMember.span.slice? "é(x.x + f(x))" = some "x.x + f(x)" ∧
      editsOf values withMember = [⟨⟨0, 1⟩, "é+x"⟩, ⟨⟨8, 9⟩, "é+x"⟩] ∧
      ∃ b next, Batch.empty.stageAll (editsOf values withMember) = .ok b ∧
        b.commit (.ofText "x.x + f(x)") = .ok next ∧
        next.text = withMember.render "é(x.x + f(x))" values ∧ next.text = "é+x.x + f(é+x)" := by
  intro values
  have hPiece : withMember.span.slice? "é(x.x + f(x))" = some "x.x + f(x)" := by decide
  have hIdents : Ascending Ident.span (fun x => x.span.FitsIn "é(x.x + f(x))") 3 13
      withMember.idents :=
    ⟨by unfold Span.Between; decide, by decide⟩
  have hEdits : editsOf values withMember = [⟨⟨0, 1⟩, "é+x"⟩, ⟨⟨8, 9⟩, "é+x"⟩] := by decide
  obtain ⟨⟨b, next, hStaged, hCommit, hText⟩, -⟩ := render_eq_commit hPiece hIdents values
  refine ⟨hPiece, hEdits, b, next, hStaged, hCommit, hText, hText.trans ?_⟩
  decide

end Construction

end SolNorm
