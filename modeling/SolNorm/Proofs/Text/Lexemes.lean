import SolNorm.Tree.Expression
import SolNorm.Proofs.Text.Pieces

/-!
Lexemes across the removal of comments. In a text a comment ends the lexeme before it, as a blank
does; what is left of it ends a lexeme only where a line break is left. A text keeps its lexemes
unless a comment on one line stands between two that can be read as one.
-/

namespace SolNorm.Comment

/-- The marks that are made of one or more characters. -/
def marks : List (List Char) :=
  (Tree.operators.map Prod.fst ++ ["++", "--", "=>", "->", ":="]).map String.toList

/-- Whether a character goes on with a lexeme: a word takes every character of a word, and a mark takes
a character with which it is another mark. -/
def joins (held : List Char) (c : Char) : Bool :=
  match held.getLast? with
  | some last => (Tree.isWordRest last && Tree.isWordRest c) || marks.contains (held ++ [c])
  | none => false

/-- The lexemes read so far, and the one that may go on. -/
structure Scan where
  done : List (List Char)
  held : List Char
  deriving DecidableEq, Repr

namespace Scan

/-- All lexemes, the last one included. -/
def all (s : Scan) : List (List Char) := if s.held.isEmpty then s.done else s.done ++ [s.held]

/-- The last lexeme does not go on. -/
def close (s : Scan) : Scan := ⟨s.all, []⟩

/-- Read a piece. -/
def step (s : Scan) : Piece → Scan
  | .plain c =>
    if joins s.held c then ⟨s.done, s.held ++ [c]⟩
    else ⟨s.all, if Tree.isSeparator c then [] else [c]⟩
  | .literal cs | .unclosed cs => ⟨s.all ++ [cs], []⟩
  | .line _ | .block _ => s.close

/-- Read pieces from left to right. -/
def run (s : Scan) (ps : List Piece) : Scan := ps.foldl step s

end Scan

/-- Nothing has been read. -/
def Scan.start : Scan := ⟨[], []⟩

/-- The lexemes of a text outside of comments. -/
def lexemes (text : String) : List (List Char) := (Scan.start.run (pieces text)).all

theorem not_joins_break (held : List Char) : joins held '\n' = false := by
  have hMarks : ∀ mark ∈ marks, mark.getLast? ≠ some '\n' := by decide
  rw [joins]
  split
  · have hLast : (held ++ ['\n']).getLast? = some '\n' := List.getLast?_concat
    have hNot : marks.contains (held ++ ['\n']) = false := by
      simpa using fun hMem => hMarks _ hMem hLast
    rw [hNot]
    simp [show Tree.isWordRest '\n' = false by decide]
  · rfl

namespace Scan

variable {s : Scan}

@[simp] theorem all_close : s.close.all = s.all := rfl

@[simp] theorem close_close : s.close.close = s.close := rfl

@[simp] theorem not_joins_close (c : Char) : joins s.close.held c = false := rfl

theorem step_break : s.step (.plain '\n') = s.close := by
  rw [step, not_joins_break]
  rfl

/-- Any number of line breaks, but at least one, ends a lexeme. -/
theorem run_breaks (breaks : Nat) :
    s.run (List.replicate (breaks + 1) (.plain '\n')) = s.close := by
  induction breaks generalizing s with
  | zero => exact step_break
  | succ n ih =>
      show (s.step _).run _ = _
      rw [step_break, ih, close_close]

theorem all_of_held {c : Char} (h : joins s.held c = true) : s.all = s.done ++ [s.held] := by
  have hHeld : s.held ≠ [] := by
    intro hNil
    simp [joins, hNil] at h
  simp [all, hHeld]

theorem exists_all (s : Scan) : ∃ more, s.all = s.done ++ more := by
  rw [all]
  split
  · exact ⟨[], (List.append_nil _).symm⟩
  · exact ⟨[s.held], rfl⟩

/-- The step: the lexeme that may go on does so, or it is done. -/
theorem step_cases (s : Scan) (p : Piece) :
    (∃ c, joins s.held c = true ∧ s.step p = ⟨s.done, s.held ++ [c]⟩) ∨
      ∃ more held, s.step p = ⟨s.all ++ more, held⟩ := by
  cases p with
  | plain c =>
      by_cases hJoins : joins s.held c = true
      · exact .inl ⟨c, hJoins, by rw [step, if_pos hJoins]⟩
      · exact .inr ⟨[], _, by rw [step, if_neg hJoins, List.append_nil]⟩
  | literal cs | unclosed cs => exact .inr ⟨[cs], [], rfl⟩
  | line | block => exact .inr ⟨[], [], by rw [List.append_nil]; rfl⟩

/-- The run of what is done: it stays. -/
theorem exists_done_run (s : Scan) (ps : List Piece) : ∃ more, (s.run ps).done = s.done ++ more := by
  induction ps generalizing s with
  | nil => exact ⟨[], (List.append_nil _).symm⟩
  | cons p rest ih =>
      obtain ⟨more, hRest⟩ := ih (s.step p)
      have hRun : (s.run (p :: rest)).done = (s.step p).done ++ more := hRest
      rcases s.step_cases p with ⟨c, -, hStep⟩ | ⟨extra, held, hStep⟩
      · exact ⟨more, by rw [hRun, hStep]⟩
      · obtain ⟨last, hAll⟩ := s.exists_all
        exact ⟨last ++ extra ++ more, by simp [hRun, hStep, hAll]⟩

/-- The run of any lexeme: it stays at its place and gets no shorter. -/
theorem exists_all_run {s : Scan} {before behind : List (List Char)} {lexeme : List Char}
    (h : s.all = before ++ lexeme :: behind) (ps : List Piece) :
    ∃ grown behind, (s.run ps).all = before ++ grown :: behind ∧ lexeme.length ≤ grown.length := by
  induction ps generalizing s lexeme behind with
  | nil => exact ⟨lexeme, behind, h, Nat.le_refl _⟩
  | cons p rest ih =>
      rcases s.step_cases p with ⟨c, hJoins, hStep⟩ | ⟨extra, held, hStep⟩
      · have hNext : (s.step p).all = s.done ++ [s.held ++ [c]] := by simp [hStep, all]
        rw [all_of_held hJoins] at h
        -- The lexeme is the one that goes on, or it stands before that one.
        rcases List.eq_nil_or_concat' behind with rfl | ⟨front, last, rfl⟩
        · obtain ⟨hDone, hHeld⟩ := List.append_inj' h rfl
          rw [hDone] at hNext
          obtain ⟨grown, behind, hRun, hLength⟩ := ih hNext
          rw [List.length_append, List.singleton_inj.mp hHeld] at hLength
          exact ⟨grown, behind, hRun, by omega⟩
        · rw [← List.cons_append, ← List.append_assoc] at h
          rw [(List.append_inj' h rfl).1, List.append_assoc, List.cons_append] at hNext
          exact ih hNext
      · obtain ⟨last, hAll⟩ := (s.step p).exists_all
        have hNext : (s.step p).all = before ++ lexeme :: (behind ++ extra ++ last) := by
          rw [hAll, hStep, h]
          simp
        exact ih hNext

/-- Where the lexeme that may go on is done on one side and goes on on the other, the two sides never
have the same lexemes again. -/
theorem all_run_ne {s : Scan} {c : Char} (hJoins : joins s.held c = true) (held : List Char)
    (ps qs : List Piece) :
    ((Scan.mk s.all held).run ps).all ≠ ((s.step (.plain c)).run qs).all := by
  intro hSame
  have hGrown : (s.step (.plain c)).all = s.done ++ (s.held ++ [c]) :: [] := by
    rw [step, if_pos hJoins]
    simp [all]
  obtain ⟨grown, behind, hRight, hLength⟩ := exists_all_run hGrown qs
  obtain ⟨more, hDone⟩ := exists_done_run ⟨s.all, held⟩ ps
  obtain ⟨last, hLeft⟩ := ((Scan.mk s.all held).run ps).exists_all
  rw [hLeft, hDone, hRight, all_of_held hJoins] at hSame
  simp at hSame
  simp [← hSame.1] at hLength

end Scan

/-- The line breaks that are left of a comment. -/
def Piece.breaks : Piece → Nat
  | .block cs => cs.count '\n'
  | _ => 0

/-- A comment of which nothing is left. -/
def Piece.Vanishes (p : Piece) : Prop := p.isComment = true ∧ p.stripped = []

/-- Behind a lexeme there is, with nothing but vanishing comments in between, a character that would go
on with it. -/
def Opens (held : List Char) (ps : List Piece) : Prop :=
  ∃ gap next right, ps = gap ++ .plain next :: right ∧ (∀ p ∈ gap, p.Vanishes) ∧ joins held next = true

/-- Some comments vanish between a lexeme and a character that would go on with it. -/
def Fuses (s : Scan) (ps : List Piece) : Prop :=
  ∃ left gap next right, ps = left ++ gap ++ .plain next :: right ∧ gap ≠ [] ∧
    (∀ p ∈ gap, p.Vanishes) ∧ joins (s.run left).held next = true

/-- Lexemes fuse where a comment vanishes between them, here or further on. -/
theorem fuses_cons {s : Scan} {p : Piece} {rest : List Piece} :
    Fuses s (p :: rest) ↔ (p.Vanishes ∧ Opens s.held rest) ∨ Fuses (s.step p) rest := by
  constructor
  · rintro ⟨left, gap, next, right, hSplit, hGap, hVanish, hJoins⟩
    cases left with
    | nil =>
        cases gap with
        | nil => exact absurd rfl hGap
        | cons q gap =>
            obtain ⟨rfl, hRest⟩ := List.cons.inj hSplit
            obtain ⟨hFirst, hVanish⟩ := List.forall_mem_cons.mp hVanish
            exact .inl ⟨hFirst, gap, next, right, hRest, hVanish, hJoins⟩
    | cons q left =>
        obtain ⟨rfl, hRest⟩ := List.cons.inj hSplit
        exact .inr ⟨left, gap, next, right, hRest, hGap, hVanish, hJoins⟩
  · rintro (⟨hFirst, gap, next, right, rfl, hVanish, hJoins⟩ |
      ⟨left, gap, next, right, rfl, hGap, hVanish, hJoins⟩)
    · exact ⟨[], p :: gap, next, right, rfl, List.cons_ne_nil _ _,
        List.forall_mem_cons.mpr ⟨hFirst, hVanish⟩, hJoins⟩
    · exact ⟨p :: left, gap, next, right, rfl, hGap, hVanish, hJoins⟩

/-- A lexeme goes on behind comments that vanish. -/
theorem opens_cons {held : List Char} {p : Piece} {rest : List Piece} :
    Opens held (p :: rest) ↔
      (p.Vanishes ∧ Opens held rest) ∨ ∃ c, p = .plain c ∧ joins held c = true := by
  constructor
  · rintro ⟨gap, next, right, hSplit, hVanish, hJoins⟩
    cases gap with
    | nil =>
        obtain ⟨rfl, -⟩ := List.cons.inj hSplit
        exact .inr ⟨next, rfl, hJoins⟩
    | cons q gap =>
        obtain ⟨rfl, hRest⟩ := List.cons.inj hSplit
        obtain ⟨hFirst, hVanish⟩ := List.forall_mem_cons.mp hVanish
        exact .inl ⟨hFirst, gap, next, right, hRest, hVanish, hJoins⟩
  · rintro (⟨hFirst, gap, next, right, rfl, hVanish, hJoins⟩ | ⟨c, rfl, hJoins⟩)
    · exact ⟨p :: gap, next, right, rfl, List.forall_mem_cons.mpr ⟨hFirst, hVanish⟩, hJoins⟩
    · exact ⟨[], c, rest, rfl, by simp, hJoins⟩

theorem not_fuses_nil (s : Scan) : ¬ Fuses s [] := by
  rintro ⟨left, gap, next, right, hSplit, -⟩
  simp at hSplit

theorem not_opens_nil (held : List Char) : ¬ Opens held [] := by
  rintro ⟨gap, next, right, hSplit, -⟩
  simp at hSplit

/-- Behind a blank no lexeme goes on. -/
theorem not_opens_close (s : Scan) (ps : List Piece) : ¬ Opens s.close.held ps := by
  rintro ⟨gap, next, right, -, -, hJoins⟩
  simp at hJoins

/-- What a piece is for the lexemes: a comment that vanishes, a comment that leaves line breaks, or
something that is kept as it is. -/
theorem Piece.cases (p : Piece) :
    p.Vanishes ∨
      (∃ breaks, p.isComment = true ∧ p.stripped = List.replicate (breaks + 1) (.plain '\n')) ∨
      (p.isComment = false ∧ p.stripped = [p]) := by
  cases p with
  | plain | literal | unclosed => exact .inr (.inr ⟨rfl, rfl⟩)
  | line cs => exact .inl ⟨rfl, rfl⟩
  | block cs =>
      cases hBreaks : cs.count '\n' with
      | zero => exact .inl ⟨rfl, by rw [stripped, hBreaks]; rfl⟩
      | succ breaks => exact .inr (.inl ⟨breaks, rfl, by rw [stripped, hBreaks]⟩)

/-- In the text a comment ends a lexeme. -/
theorem Scan.step_of_isComment {s : Scan} {p : Piece} (h : p.isComment = true) :
    s.step p = s.close := by
  cases p with
  | line | block => rfl
  | plain | literal | unclosed => cases h

/-- Where a lexeme does not go on, it makes no difference that it has been ended. -/
theorem Scan.step_close {s : Scan} {p : Piece} (hComment : p.isComment = false)
    (hEnds : ¬ ∃ c, p = .plain c ∧ joins s.held c = true) : s.close.step p = s.step p := by
  cases p with
  | plain c =>
      have hJoins : joins s.held c = false := by simpa using hEnds
      simp [step, hJoins]
  | literal | unclosed => rfl
  | line | block => cases hComment

/-- The run of both sides, from the same lexemes and from lexemes of which a comment that has vanished
has ended the last: the lexemes stay the same unless some are fused. -/
theorem all_run_stripped (s : Scan) (ps : List Piece) :
    ((s.run ps).all = (s.run (ps.flatMap Piece.stripped)).all ↔ ¬ Fuses s ps) ∧
      ((s.close.run ps).all = (s.run (ps.flatMap Piece.stripped)).all ↔
        ¬ Fuses s.close ps ∧ ¬ Opens s.held ps) := by
  induction ps generalizing s with
  | nil => exact ⟨by simp [not_fuses_nil], by simp [not_fuses_nil, not_opens_nil, Scan.run]⟩
  | cons p rest ih =>
      have hRun (s : Scan) : s.run (p :: rest) = (s.step p).run rest := rfl
      have hLeft : s.run ((p :: rest).flatMap Piece.stripped) =
          (s.run p.stripped).run (rest.flatMap Piece.stripped) := by
        rw [List.flatMap_cons]
        exact List.foldl_append
      rw [hRun, hRun, hLeft, fuses_cons, fuses_cons, opens_cons]
      rcases p.cases with hVanish | ⟨breaks, hComment, hBreaks⟩ | ⟨hComment, hKept⟩
      · have hOther : ¬ ∃ c, p = .plain c ∧ joins s.held c = true := by
          rintro ⟨c, rfl, -⟩
          cases hVanish.1
        have hBlank : ¬ Opens s.close.held rest := not_opens_close s rest
        have hNext := (ih s).2
        have hSame : s.run p.stripped = s := by rw [hVanish.2]; rfl
        rw [hSame, Scan.step_of_isComment hVanish.1, Scan.step_of_isComment hVanish.1,
          Scan.close_close, hNext]
        simp only [hVanish, hOther, hBlank, true_and, or_false, and_false, false_or, not_or]
        exact ⟨and_comm, trivial⟩
      · have hLasts : ¬ p.Vanishes := by
          rintro ⟨-, hNil⟩
          simp [hBreaks] at hNil
        have hOther : ¬ ∃ c, p = .plain c ∧ joins s.held c = true := by
          rintro ⟨c, rfl, -⟩
          cases hComment
        have hNext := (ih s.close).1
        rw [hBreaks, Scan.run_breaks, Scan.step_of_isComment hComment,
          Scan.step_of_isComment hComment, Scan.close_close]
        simp [hNext, hLasts, hOther]
      · have hLasts : ¬ p.Vanishes := by
          rintro ⟨hIs, -⟩
          rw [hComment] at hIs
          cases hIs
        have hNext := (ih (s.step p)).1
        have hStep : s.run p.stripped = s.step p := by rw [hKept]; rfl
        rw [hStep]
        by_cases hJoins : ∃ c, p = .plain c ∧ joins s.held c = true
        · obtain ⟨c, rfl, hJoins⟩ := hJoins
          have hSplit := Scan.all_run_ne hJoins (if Tree.isSeparator c then [] else [c]) rest
            (rest.flatMap Piece.stripped)
          have hClosed : s.close.step (.plain c) = ⟨s.all, if Tree.isSeparator c then [] else [c]⟩ :=
            rfl
          rw [hClosed]
          simp [hNext, hLasts, hSplit, hJoins]
        · rw [Scan.step_close hComment hJoins]
          simp [hNext, hLasts, hJoins]

/-- The line breaks that are left of comments. -/
def breaksOf (gap : List Piece) : Nat := (gap.map Piece.breaks).sum

/-- Two characters of a text with nothing but comments between them. -/
structure Parted (text : String) (left : List Piece) (last : Char) (gap : List Piece) (next : Char)
    (right : List Piece) : Prop where
  split : pieces text = left ++ .plain last :: gap ++ .plain next :: right
  filled : gap ≠ []
  comments : ∀ p ∈ gap, p.isComment = true

/-- The lexeme that ends with a character. -/
def lexemeAt (left : List Piece) (last : Char) : List Char :=
  (Scan.start.run (left ++ [.plain last])).held

/-- Two characters that stand together as one lexeme: both are characters of words, or the two make a
mark. -/
def Clings (last next : Char) : Prop :=
  (Tree.isWordRest last = true ∧ Tree.isWordRest next = true) ∨ [last, next] ∈ marks

instance (last next : Char) : Decidable (Clings last next) := inferInstanceAs (Decidable (_ ∨ _))

/-- Of comments only their line breaks are left. -/
theorem kept_of_comments {gap : List Piece} (h : ∀ p ∈ gap, p.isComment = true) :
    gap.flatMap Piece.kept = List.replicate (breaksOf gap) '\n' := by
  induction gap with
  | nil => rfl
  | cons p rest ih =>
      obtain ⟨hFirst, hRest⟩ := List.forall_mem_cons.mp h
      have hKept : p.kept = List.replicate p.breaks '\n' := by
        cases p with
        | line | block => rfl
        | plain | literal | unclosed => cases hFirst
      have hBreaks : breaksOf (p :: rest) = p.breaks + breaksOf rest := rfl
      rw [hBreaks, List.replicate_add, List.flatMap_cons, hKept, ih hRest]

/-- A comment vanishes if it leaves no line break behind. -/
theorem vanishes_iff {p : Piece} (h : p.isComment = true) : p.Vanishes ↔ p.breaks = 0 := by
  cases p with
  | line cs => simp [Piece.Vanishes, Piece.stripped, Piece.breaks, h]
  | block cs => simp [Piece.Vanishes, Piece.stripped, Piece.breaks, h]
  | plain | literal | unclosed => cases h

theorem all_vanish_iff {gap : List Piece} (h : ∀ p ∈ gap, p.isComment = true) :
    (∀ p ∈ gap, p.Vanishes) ↔ breaksOf gap = 0 := by
  rw [breaksOf, List.sum_eq_zero_iff]
  simp only [List.forall_mem_map]
  exact forall₂_congr fun p hp => vanishes_iff (h p hp)

theorem run_concat (s : Scan) (left : List Piece) (p : Piece) :
    s.run (left ++ [p]) = (s.run left).step p := by
  simp [Scan.run, List.foldl_append]

/-- A lexeme that may go on ends with the last character that was read. -/
theorem exists_last_of_held {left : List Piece} (h : (Scan.start.run left).held ≠ []) :
    ∃ front last, left = front ++ [.plain last] := by
  rcases List.eq_nil_or_concat' left with rfl | ⟨front, p, rfl⟩
  · exact absurd rfl h
  · rw [run_concat] at h
    cases p with
    | plain last => exact ⟨front, last, rfl⟩
    | literal | unclosed | line | block => exact absurd rfl h

theorem getLast?_lexemeAt {left : List Piece} {last : Char} (h : lexemeAt left last ≠ []) :
    (lexemeAt left last).getLast? = some last := by
  rw [lexemeAt, run_concat, Scan.step] at h ⊢
  split at h <;> simp_all

/-- What goes on with a lexeme clings to its last character. -/
theorem clings_of_joins {left : List Piece} {last next : Char}
    (h : joins (lexemeAt left last) next = true) : Clings last next := by
  have hEnds : ∀ mark ∈ marks, 1 < mark.length → mark.drop (mark.length - 2) ∈ marks := by decide
  have hHeld : lexemeAt left last ≠ [] := by
    intro hNil
    simp [hNil, joins] at h
  have hLast := getLast?_lexemeAt hHeld
  simp only [joins, hLast, Bool.or_eq_true, Bool.and_eq_true] at h
  refine h.imp id fun hMark => ?_
  obtain ⟨front, hFront⟩ := List.getLast?_eq_some_iff.mp hLast
  rw [hFront] at hMark
  simpa using hEnds _ (List.contains_iff_mem.mp hMark) (by simp)

/-- The lexemes that are fused, by the characters that come together. -/
theorem fuses_iff {text : String} :
    Fuses Scan.start (pieces text) ↔
      ∃ left last gap next right, Parted text left last gap next right ∧ breaksOf gap = 0 ∧
        joins (lexemeAt left last) next = true := by
  constructor
  · rintro ⟨left, gap, next, right, hSplit, hGap, hVanish, hJoins⟩
    have hHeld : (Scan.start.run left).held ≠ [] := by
      intro hNil
      simp [hNil, joins] at hJoins
    obtain ⟨front, last, rfl⟩ := exists_last_of_held hHeld
    have hComments : ∀ p ∈ gap, p.isComment = true := fun p hp => (hVanish p hp).1
    exact ⟨front, last, gap, next, right, ⟨by simpa using hSplit, hGap, hComments⟩,
      (all_vanish_iff hComments).mp hVanish, hJoins⟩
  · rintro ⟨left, last, gap, next, right, hParted, hBreaks, hJoins⟩
    exact ⟨left ++ [Piece.plain last], gap, next, right, by simp [hParted.split], hParted.filled,
      (all_vanish_iff hParted.comments).mpr hBreaks, hJoins⟩

/-- Comments are always removed, and between two characters that only comments part exactly the line
breaks of the block comments are left. The lexemes stay the same exactly when no comments without line
breaks part a lexeme from a character that goes on with it; and where they do not stay the same, two
characters that cling to each other come together. -/
theorem lexemes_strip_iff (text : String) :
    ∃ out, strip text = .ok out ∧
      (∀ left last gap next right, Parted text left last gap next right →
        out.toList = left.flatMap Piece.kept ++ last :: List.replicate (breaksOf gap) '\n' ++
          next :: right.flatMap Piece.kept) ∧
      (lexemes out = lexemes text ↔
        ∀ left last gap next right, Parted text left last gap next right → breaksOf gap = 0 →
          joins (lexemeAt left last) next = false) ∧
      (lexemes out ≠ lexemes text →
        ∃ left last gap next right, Parted text left last gap next right ∧ breaksOf gap = 0 ∧
          Clings last next) := by
  have hStrip := strip_eq text
  have hSame : lexemes (String.ofList ((pieces text).flatMap Piece.kept)) = lexemes text ↔
      ¬ Fuses Scan.start (pieces text) := by
    rw [lexemes, lexemes, pieces_strip hStrip, eq_comm]
    exact (all_run_stripped Scan.start (pieces text)).1
  refine ⟨_, hStrip, ?_, ?_, ?_⟩
  · intro left last gap next right hParted
    rw [String.toList_ofList, hParted.split]
    simp [Piece.kept, Piece.text, kept_of_comments hParted.comments]
  · rw [hSame, fuses_iff]
    simp only [not_exists, not_and, Bool.not_eq_true]
  · intro hChanged
    rw [ne_eq, hSame, not_not, fuses_iff] at hChanged
    obtain ⟨left, last, gap, next, right, hParted, hBreaks, hJoins⟩ := hChanged
    exact ⟨left, last, gap, next, right, hParted, hBreaks, clings_of_joins hJoins⟩

/-- Two words with an empty comment between them become one. -/
theorem words_fused :
    strip "uint/**/x;" = .ok "uintx;" ∧
      Parted "uint/**/x;" [.plain 'u', .plain 'i', .plain 'n'] 't' [.block ['/', '*', '*', '/']] 'x'
        [.plain ';'] ∧ Clings 't' 'x' ∧ lexemes "uintx;" ≠ lexemes "uint/**/x;" := by
  have hStrip : strip "uint/**/x;" = .ok "uintx;" := by cbv
  have hParted : Parted "uint/**/x;" [.plain 'u', .plain 'i', .plain 'n'] 't'
      [.block ['/', '*', '*', '/']] 'x' [.plain ';'] := ⟨by decide, by decide, by decide⟩
  obtain ⟨out, hOut, -, hSame, -⟩ := lexemes_strip_iff "uint/**/x;"
  rw [hStrip] at hOut
  rw [← Except.ok.inj hOut] at hSame
  refine ⟨hStrip, hParted, by decide, fun hEqual => ?_⟩
  have hJoins := hSame.mp hEqual _ _ _ _ _ hParted (by decide)
  cases hJoins

end SolNorm.Comment
