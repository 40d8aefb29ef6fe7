import SolNorm.Import.Flatten
import SolNorm.Proofs.Pipeline.Run
import SolNorm.Proofs.Text.Comments

/-!
One step of putting in imported files. What happens at an import depends on the file that it names:
the file may be open, it may have been put in before, or its turn is now.
-/

namespace SolNorm.Flatten

variable {α β : Type}

/-- The end of a step, with the files that have then been put in. -/
def ending (x : Step α) (done before : List String) :
    Except Error (α × List String) × List String :=
  Run.ending (x.run done) before

/-- A step succeeds. -/
def Gives (x : Step α) (done before : List String) (a : α) (done' after : List String) : Prop :=
  ending x done before = (.ok (a, done'), after)

/-- A step ends with an error. -/
def Fails (x : Step α) (done before : List String) (e : Error) (after : List String) : Prop :=
  ending x done before = (.error e, after)

theorem ending_bind (x : Step α) (f : α → Step β) (done before : List String) :
    ending (x >>= f) done before =
      match ending x done before with
      | (.ok (a, done'), middle) => ending (f a) done' middle
      | (.error e, middle) => (.error e, middle) := by
  unfold ending
  rw [StateT.run_bind, Run.ending_bind]
  cases Run.ending (x.run done) before with
  | mk result middle => cases result <;> rfl

theorem ending_pure (a : α) (done before : List String) :
    ending (pure a) done before = (.ok (a, done), before) := rfl

theorem ending_get (done before : List String) :
    ending get done before = (.ok (done, done), before) := rfl

theorem ending_modify (f : List String → List String) (done before : List String) :
    ending (modify f) done before = (.ok ((), f done), before) := rfl

/-- A run that knows nothing of the files that have been put in. -/
theorem ending_lift (x : Run α) (done before : List String) :
    ending (liftM x) done before = ((x.ending before).1.map (·, done), (x.ending before).2) := by
  show Run.ending (x >>= fun a => pure (a, done)) before = _
  rw [Run.ending_bind]
  cases x.ending before with
  | mk result middle => cases result <;> rfl

/-- Two steps give what the second one gives where the first one left off. -/
theorem gives_bind_iff {x : Step α} {f : α → Step β} {done before done' after : List String}
    {b : β} :
    Gives (x >>= f) done before b done' after ↔ ∃ a middle asked,
      Gives x done before a middle asked ∧ Gives (f a) middle asked b done' after := by
  unfold Gives
  rw [ending_bind]
  cases ending x done before with
  | mk result asked =>
      cases result with
      | error e => simp
      | ok pair => obtain ⟨a, middle⟩ := pair; simp [and_assoc]

/-- Two steps fail as the first one does, or as the second one does after it. -/
theorem fails_bind_iff {x : Step α} {f : α → Step β} {done before after : List String}
    {e : Error} :
    Fails (x >>= f) done before e after ↔ Fails x done before e after ∨ ∃ a middle asked,
      Gives x done before a middle asked ∧ Fails (f a) middle asked e after := by
  unfold Gives Fails
  rw [ending_bind]
  cases ending x done before with
  | mk result asked =>
      cases result with
      | error e => simp
      | ok pair => obtain ⟨a, middle⟩ := pair; simp [and_assoc]

@[simp] theorem gives_pure_iff {a b : α} {done before done' after : List String} :
    Gives (pure a) done before b done' after ↔ a = b ∧ done = done' ∧ before = after := by
  show (Except.ok (a, done), before) = (Except.ok (b, done'), after) ↔ _
  simp [and_assoc]

@[simp] theorem not_fails_pure {a : α} {done before after : List String} {e : Error} :
    ¬ Fails (pure a) done before e after := by
  intro h
  cases h

/-- The texts for the imports of a file, in the places of the imports. -/
def parts (s : Sources) (n : Nat) (open_ : List String) (importer : String)
    (directives : List Outline.Import) : Step (List Edit) :=
  directives.mapM fun d => do return ⟨d.span, ← expand s n open_ d.path importer⟩

theorem parts_cons (s : Sources) (n : Nat) (open_ : List String) (importer : String)
    (d : Outline.Import) (ds : List Outline.Import) :
    parts s n open_ importer (d :: ds) = do
      let text ← expand s n open_ d.path importer
      let rest ← parts s n open_ importer ds
      return ⟨d.span, text⟩ :: rest := by
  simp [parts]

theorem gives_parts_cons {s : Sources} {n : Nat} {open_ : List String} {importer text : String}
    {d : Outline.Import} {ds : List Outline.Import} {edits : List Edit}
    {done before middle asked done' after : List String}
    (hFirst : Gives (expand s n open_ d.path importer) done before text middle asked)
    (hRest : Gives (parts s n open_ importer ds) middle asked edits done' after) :
    Gives (parts s n open_ importer (d :: ds)) done before (⟨d.span, text⟩ :: edits) done' after := by
  rw [parts_cons, gives_bind_iff]
  refine ⟨text, middle, asked, hFirst, ?_⟩
  rw [gives_bind_iff]
  exact ⟨edits, done', after, hRest, gives_pure_iff.mpr ⟨rfl, rfl, rfl⟩⟩

/-- The imports of a file fail if one of them does. -/
theorem fails_parts_cons_iff {s : Sources} {n : Nat} {open_ : List String} {importer : String}
    {d : Outline.Import} {ds : List Outline.Import} {done before after : List String} {e : Error} :
    Fails (parts s n open_ importer (d :: ds)) done before e after ↔
      Fails (expand s n open_ d.path importer) done before e after ∨
      ∃ text middle asked, Gives (expand s n open_ d.path importer) done before text middle asked ∧
        Fails (parts s n open_ importer ds) middle asked e after := by
  rw [parts_cons, fails_bind_iff]
  simp only [fails_bind_iff, not_fails_pure, and_false, exists_false, or_false]

theorem mapM_expand (s : Sources) (n : Nat) (open_ : List String) (importer : String)
    (directives : List Outline.Import) :
    (directives.mapM fun d => do
      let part ← expand s n open_ d.path importer
      return (d.span, part)) = do
        let edits ← parts s n open_ importer directives
        return edits.map fun e => (e.span, e.replacement) := by
  induction directives with
  | nil => simp [parts]
  | cons d ds ih => simp only [List.mapM_cons, parts_cons, ih, bind_assoc, pure_bind, List.map_cons]

/-- To fill in parts comes to the same as applying their edits from the back. -/
theorem fill_eq (text : String) (edits : List Edit) :
    fill text (edits.map fun e => (e.span, e.replacement)) =
      String.ofList (edits.reverse.foldl Edit.apply text.toList) := by
  unfold fill
  rw [← List.map_reverse, List.foldl_map]
  rfl

section

variable {s : Sources} {n : Nat} {open_ : List String} {path importer : String} {file : SourceFile}

theorem ending_expand_of_unresolved {e : Error} (h : s.resolver.resolve path importer = .error e)
    (done before : List String) :
    ending (expand s (n + 1) open_ path importer) done before = (.error e, before) := by
  rw [expand, h]
  rfl

/-- An import of a file that is still open goes in a circle. -/
theorem ending_expand_of_open (h : s.resolver.resolve path importer = .ok file)
    (hOpen : file.path ∈ open_) (done before : List String) :
    ending (expand s (n + 1) open_ path importer) done before =
      (.error (.cyclicImport (circle open_ file.path)), before) := by
  rw [expand, h]
  simp only [List.contains_iff_mem, hOpen, if_true]
  rfl

/-- A file that is done is not put in again. -/
theorem ending_expand_of_done (h : s.resolver.resolve path importer = .ok file)
    (hOpen : file.path ∉ open_) {done : List String} (hDone : file.path ∈ done)
    (before : List String) :
    ending (expand s (n + 1) open_ path importer) done before = (.ok ("", done), before) := by
  rw [expand, h]
  simp only [List.contains_iff_mem, hOpen, if_false, ending_bind, ending_get, hDone, if_true,
    ending_pure]

/-- The first import of a file: its own imports come first, and then it has been put in. -/
theorem ending_expand_of_fresh (h : s.resolver.resolve path importer = .ok file)
    (hOpen : file.path ∉ open_) {done : List String} (hDone : file.path ∉ done) {text : String}
    (hText : Comment.strip file.text = .ok text) (before : List String) :
    ending (expand s (n + 1) open_ path importer) done before =
      match s.parser.parse before text with
      | .error cause => (.error (.parse file.path cause), before ++ [text])
      | .ok unit =>
        match ending (parts s n (open_ ++ [file.path]) file.path unit.imports) done
            (before ++ [text]) with
        | (.ok (edits, done'), after) =>
          (.ok (String.ofList (edits.reverse.foldl Edit.apply text.toList), file.path :: done'), after)
        | (.error e, after) => (.error e, after) := by
  rw [expand, h]
  simp only [List.contains_iff_mem, hOpen, if_false, ending_bind, ending_get, hDone, ending_lift,
    hText, Run.ending_ofExcept, Run.ending_ask, Except.map, mapM_expand, ending_modify, ending_pure]
  cases s.parser.parse before text with
  | error cause => rfl
  | ok unit =>
      simp only [Except.mapError]
      cases ending (parts s n (open_ ++ [file.path]) file.path unit.imports) done
          (before ++ [text]) with
      | mk result after =>
          cases result with
          | error e => rfl
          | ok pair =>
              show (Except.ok (fill text (pair.1.map _), file.path :: pair.2), after) = _
              rw [fill_eq]

end

end SolNorm.Flatten
