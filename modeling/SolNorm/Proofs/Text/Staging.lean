import SolNorm.Proofs.Text.Splice

/-!
Batches under way. Edits are staged, discarded and committed in any order, and a batch may be
committed to a source for which it was not staged. At every moment of such a history the staged edits
are apart from each other, and a command that fails changes nothing but what it has to.
-/

namespace SolNorm

/-- Two spans cannot be edited in one batch: both cover some byte, one is a point inside of what the
other covers, or they are the same point. -/
def Span.Conflicts (s t : Span) : Prop :=
  (∃ offset, s.contains offset = true ∧ t.contains offset = true) ∨
    (s.isEmpty = true ∧ t.start < s.start ∧ s.start < t.stop) ∨
    (t.isEmpty = true ∧ s.start < t.start ∧ t.start < s.stop) ∨
    (s.isEmpty = true ∧ t.isEmpty = true ∧ s.start = t.start)

/-- The test that is made on an edit and a span tells whether they conflict. -/
theorem Edit.overlaps_iff_conflicts {e : Edit} {s : Span} (he : e.span.start ≤ e.span.stop)
    (hs : s.start ≤ s.stop) : e.overlaps s = true ↔ e.span.Conflicts s := by
  simp only [overlaps, Span.Conflicts, Span.contains, Span.isEmpty, Bool.and_eq_true, beq_iff_eq,
    decide_eq_true_eq]
  split
  · rename_i hPoints
    simp only [beq_iff_eq]
    constructor
    · exact fun hSame => .inr (.inr (.inr ⟨hPoints.1, hPoints.2, hSame⟩))
    · rintro (⟨offset, h⟩ | h) <;> omega
  · rename_i hCovers
    simp only [Bool.and_eq_true, decide_eq_true_eq]
    constructor
    · rintro ⟨hStart, hStop⟩
      -- Where both cover something, the later of the two starts is a byte of both.
      by_cases hBytes : e.span.start < e.span.stop ∧ s.start < s.stop
      · exact .inl ⟨max e.span.start s.start, by omega⟩
      · omega
    · rintro (⟨offset, h⟩ | h) <;> omega

namespace Batch

/-- No staged edit is reversed, and no two of them conflict. -/
structure Orderly (b : Batch) : Prop where
  forward : ∀ e ∈ b.edits, e.span.start ≤ e.span.stop
  apart : b.edits.Pairwise fun a e => ¬ a.span.Conflicts e.span

theorem orderly_iff_compatible {b : Batch} : b.Orderly ↔ Edit.Compatible b.edits := by
  have hSame (hForward : ∀ e ∈ b.edits, e.span.start ≤ e.span.stop) :
      b.edits.Pairwise (fun a e => ¬ a.span.Conflicts e.span) ↔ b.edits.Pairwise Edit.Apart := by
    refine List.Pairwise.iff_of_mem fun {a e} ha he => ?_
    rw [← Edit.overlaps_iff_conflicts (hForward a ha) (hForward e he), Bool.not_eq_true]
    rfl
  exact ⟨fun h => ⟨h.forward, (hSame h.forward).mp h.apart⟩,
    fun h => ⟨h.forward, (hSame h.forward).mpr h.apart⟩⟩

theorem orderly_empty : empty.Orderly := ⟨by simp [empty], .nil⟩

end Batch

namespace Editor

/-- The same batch for another source. -/
def on (e : Editor) (source : Source) : Editor := { e with source }

/-- The editor after some commands. Before each of them another source may be taken up. -/
def after (e : Editor) (history : List (Source × Command)) : Editor :=
  history.foldl (fun e step => ((e.on step.1).run step.2).1) e

/-- What commands do: the editor that they leave, and the error if they fail. -/
inductive Does (e : Editor) : Command → Editor → Option Error → Prop where
  /-- An edit that conflicts with none is put behind the staged ones. -/
  | staged {span : Span} {replacement : String} (forward : span.start ≤ span.stop)
      (free : ∀ a ∈ e.batch.edits, ¬ a.span.Conflicts span) :
      Does e (.stage span replacement)
        { e with batch := ⟨e.batch.edits ++ [⟨span, replacement⟩]⟩ } none
  /-- A reversed edit changes nothing. -/
  | reversed {span : Span} {replacement : String} (back : span.stop < span.start) :
      Does e (.stage span replacement) e (some (.reversedEdit span))
  /-- An edit that conflicts with a staged one changes nothing, and the first such one is named. -/
  | refused {span : Span} {replacement : String} {before behind : List Edit} {existing : Edit}
      (forward : span.start ≤ span.stop) (split : e.batch.edits = before ++ existing :: behind)
      (first : ∀ a ∈ before, ¬ a.span.Conflicts span) (conflict : existing.span.Conflicts span) :
      Does e (.stage span replacement) e (some (.overlap existing.span span))
  | discarded : Does e .discard { e with batch := .empty } none
  /-- Without edits the source stays as it is, its version included. -/
  | idle (nothing : e.batch = .empty) : Does e .commit e none
  /-- Edits that all fit are put into the text of the next version. -/
  | committed {text : String} (filled : e.batch ≠ .empty)
      (fit : ∀ a ∈ e.batch.edits, e.source.fits a = true)
      (spliced : Edit.splice? e.source.text.toList e.source.size 0
        (e.batch.edits.mergeSort Edit.inOrder) = some text.toList) :
      Does e .commit ⟨⟨text, e.source.initial, e.source.version + 1⟩, .empty⟩ none
  /-- One edit that does not fit keeps all of them from being applied, and no text is made. -/
  | failed {before behind : List Edit} {misfit : Edit}
      (split : e.batch.edits = before ++ misfit :: behind)
      (first : ∀ a ∈ before, e.source.fits a = true) (bad : e.source.fits misfit = false)
      (unmade : ∀ next, e.batch.commit e.source ≠ .ok next) :
      Does e .commit { e with batch := .empty }
        (some (.misfitEdit misfit.span e.source.version e.source.size))

variable {e : Editor}

/-- To stage an edit adds it or changes nothing. -/
theorem does_stage (h : e.batch.Orderly) (span : Span) (replacement : String) :
    e.Does (.stage span replacement) (e.run (.stage span replacement)).1
      (e.run (.stage span replacement)).2 := by
  simp only [run, Batch.stage]
  by_cases hBack : span.stop < span.start
  · rw [if_pos hBack]
    exact .reversed hBack
  · have hForward : span.start ≤ span.stop := Nat.le_of_not_lt hBack
    rw [if_neg hBack]
    cases hFind : e.batch.edits.find? fun a => a.overlaps span with
    | none =>
        refine .staged hForward fun a ha hConflict => ?_
        rw [← Edit.overlaps_iff_conflicts (h.forward a ha) hForward] at hConflict
        exact List.find?_eq_none.mp hFind a ha hConflict
    | some existing =>
        obtain ⟨hOverlap, before, behind, hSplit, hBefore⟩ := List.find?_eq_some_iff_append.mp hFind
        have hMem {a : Edit} (ha : a ∈ before ++ existing :: behind) : a.span.start ≤ a.span.stop :=
          h.forward a (hSplit ▸ ha)
        refine .refused hForward hSplit (fun a ha hConflict => ?_) ?_
        · rw [← Edit.overlaps_iff_conflicts (hMem (List.mem_append_left _ ha)) hForward] at hConflict
          simpa [hConflict] using hBefore a ha
        · exact (Edit.overlaps_iff_conflicts (hMem (by simp)) hForward).mp hOverlap

/-- To commit puts the staged edits into the text, or names the first one that does not fit. -/
theorem does_commit (h : e.batch.Orderly) :
    e.Does .commit (e.run .commit).1 (e.run .commit).2 := by
  by_cases hEmpty : e.batch = .empty
  · obtain ⟨source, batch⟩ := e
    obtain rfl : batch = .empty := hEmpty
    exact .idle rfl
  · have hSome : e.batch.isEmpty = false := by
      rw [Batch.isEmpty, Bool.eq_false_iff]
      intro hNil
      exact hEmpty (congrArg Batch.mk (List.isEmpty_iff.mp hNil))
    cases hFind : e.batch.edits.find? fun a => !e.source.fits a with
    | none =>
        have hFits : ∀ a ∈ e.batch.edits, e.source.fits a = true := by simpa using hFind
        have hCommit : e.batch.commit e.source =
            .ok (e.source.next (String.ofList (e.batch.applyTo e.source.text.toList))) := by
          simp [Batch.commit, hSome, hFind]
        simp only [run, hCommit, Source.next]
        refine .committed hEmpty hFits ?_
        rw [String.toList_ofList]
        exact (Batch.applyTo_eq_splice (Batch.orderly_iff_compatible.mp h) hFits).2
    | some misfit =>
        obtain ⟨hBad, before, behind, hSplit, hBefore⟩ := List.find?_eq_some_iff_append.mp hFind
        have hCommit : e.batch.commit e.source =
            .error (.misfitEdit misfit.span e.source.version e.source.size) := by
          simp [Batch.commit, hSome, hFind]
        simp only [run, hCommit]
        refine .failed hSplit (by simpa using hBefore) (by simpa using hBad) fun next hNext => ?_
        rw [hCommit] at hNext
        cases hNext

/-- The step: a command does what it should to edits that are apart. -/
theorem does_run (h : e.batch.Orderly) (command : Command) :
    e.Does command (e.run command).1 (e.run command).2 := by
  cases command with
  | stage span replacement => exact does_stage h span replacement
  | discard => exact .discarded
  | commit => exact does_commit h

/-- Whatever a command does, it leaves edits that are apart. -/
theorem Does.orderly {command : Command} {next : Editor} {failure : Option Error}
    (hDoes : e.Does command next failure) (h : e.batch.Orderly) : next.batch.Orderly := by
  cases hDoes with
  | staged forward free =>
      refine ⟨?_, List.pairwise_append.mpr ⟨h.apart, List.pairwise_singleton _ _, ?_⟩⟩
      · intro a ha
        rcases List.mem_append.mp ha with ha | ha
        · exact h.forward a ha
        · rw [List.mem_singleton.mp ha]
          exact forward
      · intro a ha b hb
        rw [List.mem_singleton.mp hb]
        exact free a ha
  | reversed | refused | idle => exact h
  | discarded | committed | failed => exact Batch.orderly_empty

/-- The run: after any history the staged edits are apart. -/
theorem orderly_after (h : e.batch.Orderly) (history : List (Source × Command)) :
    (e.after history).batch.Orderly := by
  induction history generalizing e with
  | nil => exact h
  | cons step rest ih =>
      have hOn : (e.on step.1).batch.Orderly := h
      exact ih ((does_run hOn step.2).orderly hOn)

/-- After any history of commands, whichever of them failed and on whatever sources, no two staged
edits conflict and none is reversed, and the next command does on any source what it should. -/
theorem history_orderly (text : String) (history : List (Source × Command)) (source : Source)
    (command : Command) :
    let e := ((ofText text).after history).on source
    let next := e.run command
    e.batch.Orderly ∧ next.1.batch.Orderly ∧ e.Does command next.1 next.2 := by
  intro e next
  have hBefore : e.batch.Orderly := orderly_after Batch.orderly_empty history
  have hDoes := does_run hBefore command
  exact ⟨hBefore, hDoes.orderly hBefore, hDoes⟩

/-- An edit that was refused, a batch that does not fit the source to which it is committed, and a
batch that is staged anew. -/
example : (((ofText "abc").after
    [(.ofText "abc", .stage ⟨0, 2⟩ "x"), (.ofText "abc", .stage ⟨1, 1⟩ "y"),
      (.ofText "a", .commit), (.ofText "abc", .stage ⟨1, 1⟩ "y")]).on (.ofText "abc")).run .commit =
    (⟨⟨"aybc", "abc", 1⟩, .empty⟩, none) := by cbv

end Editor

end SolNorm
