import Mathlib.Data.Prod.Lex
import SolNorm.Proofs.Text.Lines

/-!
Places and the offsets for which they are reported. A line is counted by the breaks among the bytes
before it, a column by the characters behind the last break. Going on by a character always leads to a
later place, so different boundaries have different places and the offset can be found again from the
place.
-/

namespace SolNorm

namespace Position

/-- The order in which places are read: by lines, and by columns within a line. -/
def key (p : Position) : ℕ ×ₗ ℕ := toLex (p.line, p.column)

/-- Places are in the order of their lines, and on one line of their columns. -/
theorem key_lt_key {p q : Position} :
    p.key < q.key ↔ p.line < q.line ∨ p.line = q.line ∧ p.column < q.column :=
  Prod.Lex.toLex_lt_toLex

/-- The step: a character leads to a later place. -/
theorem key_lt_key_advance (p : Position) (c : Char) : p.key < (p.advance c).key := by
  rw [key_lt_key, advance]
  split
  · exact .inl (Nat.lt_succ_self _)
  · exact .inr ⟨rfl, Nat.lt_succ_self _⟩

/-- The run: so do any characters. -/
theorem key_lt_key_foldl (p : Position) (c : Char) (cs : List Char) :
    p.key < ((c :: cs).foldl advance p).key := by
  induction cs generalizing p c with
  | nil => exact key_lt_key_advance p c
  | cons d cs ih => exact (key_lt_key_advance p c).trans (ih (p.advance c) d)

theorem after_append_singleton (cs : List Char) (c : Char) :
    after (cs ++ [c]) = (after cs).advance c :=
  List.foldl_concat ..

/-- The characters behind the last line break. -/
def lastLine (cs : List Char) : List Char := (cs.reverse.takeWhile (· != '\n')).reverse

/-- Columns count the characters behind the last line break. -/
theorem column_after (cs : List Char) : (after cs).column = (lastLine cs).length + 1 := by
  induction cs using List.reverseRecOn with
  | nil => rfl
  | append_singleton cs c ih =>
      rw [after_append_singleton, advance]
      by_cases hBreak : c = '\n'
      · simp [hBreak, lastLine]
      · simpa [hBreak, lastLine] using ih

/-- The place of a boundary is where the text before it leads. -/
theorem at?_append {text : String} {before rest : List Char} (h : text.toList = before ++ rest) :
    at? text (Text.byteSize before) = some (after before) := by
  have hLe : Text.byteSize before ≤ Text.byteSize (before ++ rest) := by simp
  rw [at?, h, Nat.min_eq_left hLe, Text.splitAt?_append]
  rfl

theorem at?_succ {text : String} {before rest : List Char} {c : Char}
    (h : text.toList = before ++ c :: rest) :
    at? text (Text.byteSize before + c.utf8Size) = some ((after before).advance c) := by
  have hNext : text.toList = (before ++ [c]) ++ rest := by simp [h]
  have hSize : Text.byteSize (before ++ [c]) = Text.byteSize before + c.utf8Size := by simp
  rw [← hSize, at?_append hNext, after_append_singleton]

/-- The line of a boundary is counted by the breaks before it. -/
theorem line_after {text : String} {before rest : List Char} (h : text.toList = before ++ rest) :
    (after before).line = Text.lineOf text.toList (Text.byteSize before) := by
  obtain ⟨p, hPlace, hLine⟩ :=
    Text.exists_position (Text.isBoundary_iff.mpr ⟨before, rest, h, rfl⟩)
  rw [at?_append h, Option.some.injEq] at hPlace
  rw [hPlace, hLine]

/-- The later of two boundaries has the later place. -/
theorem key_lt_key_of_lt {text : String} {before rest before' rest' : List Char}
    (h : text.toList = before ++ rest) (h' : text.toList = before' ++ rest')
    (hLt : Text.byteSize before < Text.byteSize before') :
    (after before).key < (after before').key := by
  -- What is before the later boundary goes on behind the earlier one.
  have hStop : Text.isBoundary (before ++ rest) (Text.byteSize before') = true := by
    rw [← h]
    exact Text.isBoundary_iff.mpr ⟨before', rest', h', rfl⟩
  obtain ⟨middle, tail, rfl, hMiddle⟩ := Text.exists_middle hLt.le hStop
  have hSplit := Text.splitAt?_append (before ++ middle) tail
  rw [hMiddle, List.append_assoc, ← h, h', Text.splitAt?_append, Option.some.injEq,
    Prod.mk.injEq] at hSplit
  obtain ⟨rfl, rfl⟩ := hSplit
  cases middle with
  | nil => simp at hLt
  | cons c middle =>
      rw [after, after, List.foldl_append]
      exact key_lt_key_foldl _ c middle

/-- The offset of a place behind another one, found by going through the characters between them. -/
def offsetFrom? (target : Position) : Position → List Char → Option Nat
  | here, [] => if here = target then some 0 else none
  | here, c :: rest =>
    if here = target then some 0
    else (offsetFrom? target (here.advance c) rest).map (c.utf8Size + ·)

/-- The offset for which a place is reported. -/
def offsetOf? (text : String) (p : Position) : Option Nat := offsetFrom? p start text.toList

theorem offsetFrom?_self (p : Position) (cs : List Char) : offsetFrom? p p cs = some 0 := by
  cases cs <;> simp [offsetFrom?]

/-- An offset is found for a place to which some characters lead. -/
theorem offsetFrom?_eq_some_iff {target here : Position} {cs : List Char} {offset : Nat} :
    offsetFrom? target here cs = some offset ↔ ∃ before rest, cs = before ++ rest ∧
      Text.byteSize before = offset ∧ before.foldl advance here = target := by
  constructor
  · intro h
    induction cs generalizing here offset with
    | nil =>
        simp only [offsetFrom?, Option.ite_none_right_eq_some, Option.some.injEq] at h
        exact ⟨[], [], rfl, h.2, h.1⟩
    | cons c cs ih =>
        rw [offsetFrom?] at h
        split at h
        · rename_i hHere
          exact ⟨[], c :: cs, rfl, Option.some.inj h, hHere⟩
        · obtain ⟨behind, hRest, rfl⟩ := Option.map_eq_some_iff.mp h
          obtain ⟨before, rest, rfl, rfl, hTarget⟩ := ih hRest
          exact ⟨c :: before, rest, rfl, rfl, hTarget⟩
  · rintro ⟨before, rest, rfl, rfl, rfl⟩
    induction before generalizing here with
    | nil => exact offsetFrom?_self here rest
    | cons c before ih =>
        -- The target is behind the first character, so the search does not stop before it.
        have hLater : here ≠ (c :: before).foldl advance here := fun hSame =>
          (key_lt_key_foldl here c before).ne (congrArg key hSame)
        rw [List.cons_append, offsetFrom?, if_neg hLater, List.foldl_cons, ih]
        rfl

/-- Places tell the boundaries of a text apart. -/
structure TellsOffsets (text : String) : Prop where
  /-- Lines are counted by the breaks among the bytes before the boundary, columns by characters. -/
  counted : ∀ before rest, text.toList = before ++ rest →
    at? text (Text.byteSize before) =
      some ⟨Text.lineOf text.toList (Text.byteSize before), (lastLine before).length + 1⟩
  fromOne : ∀ offset, Text.isBoundary text.toList offset = true →
    ∃ p, at? text offset = some p ∧ 1 ≤ p.line ∧ 1 ≤ p.column
  ascending : ∀ first second, Text.isBoundary text.toList first = true →
    Text.isBoundary text.toList second = true → first < second →
      ∃ p q, at? text first = some p ∧ at? text second = some q ∧ p.key < q.key
  overBreak : ∀ before rest, text.toList = before ++ '\n' :: rest →
    ∃ p, at? text (Text.byteSize before) = some p ∧
      at? text (Text.byteSize before + 1) = some ⟨p.line + 1, 1⟩
  overOther : ∀ before c rest, text.toList = before ++ c :: rest → c ≠ '\n' →
    ∃ p, at? text (Text.byteSize before) = some p ∧
      at? text (Text.byteSize before + c.utf8Size) = some ⟨p.line, p.column + 1⟩
  recovered : ∀ offset p, offsetOf? text p = some offset ↔
    Text.isBoundary text.toList offset = true ∧ at? text offset = some p

/-- In every text a place is reported for each boundary, later boundaries have later places, and the
boundary can be found again from its place. -/
theorem tellsOffsets (text : String) : TellsOffsets text where
  counted before rest hText := by
    rw [at?_append hText, ← column_after, ← line_after hText]
  fromOne offset hBoundary := by
    obtain ⟨before, rest, hText, rfl⟩ := Text.isBoundary_iff.mp hBoundary
    refine ⟨after before, at?_append hText, ?_, ?_⟩
    · rw [line_after hText, Text.lineOf]
      exact Nat.le_add_right _ _
    · rw [column_after]
      exact Nat.le_add_left _ _
  ascending first second hFirst hSecond hLt := by
    obtain ⟨before, rest, hText, rfl⟩ := Text.isBoundary_iff.mp hFirst
    obtain ⟨before', rest', hText', rfl⟩ := Text.isBoundary_iff.mp hSecond
    exact ⟨_, _, at?_append hText, at?_append hText', key_lt_key_of_lt hText hText' hLt⟩
  overBreak before rest hText := ⟨after before, at?_append hText, at?_succ hText⟩
  overOther before c rest hText hOther := by
    refine ⟨after before, at?_append hText, ?_⟩
    rw [at?_succ hText, advance, if_neg hOther]
  recovered offset p := by
    rw [offsetOf?, offsetFrom?_eq_some_iff]
    constructor
    · rintro ⟨before, rest, hText, rfl, rfl⟩
      exact ⟨Text.isBoundary_iff.mpr ⟨before, rest, hText, rfl⟩, at?_append hText⟩
    · rintro ⟨hBoundary, hPlace⟩
      obtain ⟨before, rest, hText, rfl⟩ := Text.isBoundary_iff.mp hBoundary
      rw [at?_append hText, Option.some.injEq] at hPlace
      exact ⟨before, rest, hText, rfl, hPlace⟩

/-- A character of two bytes, an empty line and the end of the text. -/
example : (List.range 8).map (at? "é\n\nab") =
    [some ⟨1, 1⟩, none, some ⟨1, 2⟩, some ⟨2, 1⟩, some ⟨3, 1⟩, some ⟨3, 2⟩, some ⟨3, 3⟩,
      some ⟨3, 3⟩] ∧ offsetOf? "é\n\nab" ⟨3, 2⟩ = some 5 ∧ offsetOf? "é\n\nab" ⟨2, 2⟩ = none := by
  decide

end Position

end SolNorm
