import SolNorm.Proofs.Import.Flatten
import SolNorm.Proofs.Slips

/-!
How putting in imported files can fail: a file is not found, it is no source unit, or files import
each other in a circle. What is put in goes exactly where the imports are.
-/

namespace SolNorm

open Outcome

/-- That a library has no such file is never a slip. -/
theorem Library.failsIn_resolve (l : Library) (path importer : String) :
    FailsIn (fun e => e.isSlip = false) (l.resolver.resolve path importer) := by
  show FailsIn _ (l.resolve path importer)
  unfold resolve
  split
  · exact failsIn_ok _
  · split
    · exact failsIn_ok _
    · exact failsIn_error rfl

namespace Flatten

variable {s : Sources} {n : Nat} {open_ done before done' after : List String} {importer : String}

theorem span_of_parts {ds : List Outline.Import} {edits : List Edit}
    (h : Gives (parts s n open_ importer ds) done before edits done' after) :
    edits.map Edit.span = ds.map Outline.Import.span := by
  induction ds generalizing done before edits done' after with
  | nil =>
      obtain ⟨rfl, _⟩ := gives_pure_iff.mp h
      rfl
  | cons d ds ih =>
      rw [parts_cons, gives_bind_iff] at h
      obtain ⟨text, middle, asked, _, h⟩ := h
      rw [gives_bind_iff] at h
      obtain ⟨rest, middle', asked', hRest, hEdits⟩ := h
      obtain ⟨rfl, _⟩ := gives_pure_iff.mp hEdits
      rw [List.map_cons, List.map_cons, ih hRest]

/-- The imports of a file fail as one of them does. -/
theorem isSlip_of_parts
    (hEach : ∀ {path done before e after},
      Fails (expand s n open_ path importer) done before e after → e.isSlip = false)
    {ds : List Outline.Import} {e : Error}
    (h : Fails (parts s n open_ importer ds) done before e after) : e.isSlip = false := by
  induction ds generalizing done before with
  | nil => exact (not_fails_pure h).elim
  | cons d ds ih =>
      rcases fails_parts_cons_iff.mp h with hFirst | ⟨_, _, _, _, hRest⟩
      · exact hEach hFirst
      · exact ih hRest

/-- Putting in a file fails only for what is wrong with the files. -/
theorem isSlip_of_expand
    (hResolver : ∀ path importer,
      FailsIn (fun e => e.isSlip = false) (s.resolver.resolve path importer))
    {path : String} {e : Error}
    (h : Fails (expand s n open_ path importer) done before e after) : e.isSlip = false := by
  induction n generalizing open_ path importer done before e after with
  | zero =>
      rw [expand] at h
      cases h
      rfl
  | succ n ih =>
      unfold Fails at h
      cases hFile : s.resolver.resolve path importer with
      | error cause =>
          rw [ending_expand_of_unresolved hFile] at h
          obtain rfl : cause = e := Except.error.inj (Prod.mk.inj h).1
          exact hResolver path importer cause hFile
      | ok file =>
          by_cases hOpen : file.path ∈ open_
          · rw [ending_expand_of_open hFile hOpen] at h
            cases h
            rfl
          by_cases hDone : file.path ∈ done
          · rw [ending_expand_of_done hFile hOpen hDone] at h
            cases h
          obtain ⟨text, hText⟩ := Comment.exists_strip file.text
          rw [ending_expand_of_fresh hFile hOpen hDone hText] at h
          cases hParse : s.parser.parse before text with
          | error cause =>
              simp only [hParse] at h
              cases h
              rfl
          | ok unit =>
              simp only [hParse] at h
              split at h
              · cases h
              · rename_i cause asked hParts
                cases h
                exact isSlip_of_parts (fun hEach => ih hEach) hParts

/-- The edits cover the imports of the file, in their order. -/
theorem span_of_edits {path : String} {unit : Outline} {edits : List Edit}
    (h : (Flatten.edits s path unit).Gives before edits after) :
    edits.map Edit.span = unit.imports.map Outline.Import.span := by
  unfold Run.Gives at h
  rw [ending_edits] at h
  split at h
  · rename_i parts done' asked hParts
    cases h
    exact span_of_parts hParts
  · cases h

/-- Imports fail only as the resolver does, or because they go in a circle or cannot be read. -/
theorem isSlip_of_edits
    (hResolver : ∀ path importer,
      FailsIn (fun e => e.isSlip = false) (s.resolver.resolve path importer))
    {path : String} {unit : Outline} {e : Error}
    (h : (Flatten.edits s path unit).Fails before e after) : e.isSlip = false := by
  unfold Run.Fails at h
  rw [ending_edits] at h
  split at h
  · cases h
  · rename_i cause asked hParts
    cases h
    exact isSlip_of_parts (fun hEach => isSlip_of_expand hResolver hEach) hParts

end Flatten

end SolNorm
