import SolNorm.Pipeline.Standard
import SolNorm.Proofs.Import.Graph

/-!
What putting in imported files makes of a source. The files are searched depth first, and the search
fails exactly if files import each other in a circle. Otherwise every file that the source reaches
goes in once, where it is named first.
-/

namespace SolNorm.Flatten

open Relation

/-- What becomes of the imports of a file. Each import is replaced, either by nothing or by the file
that it names, with the imports of that file replaced in turn. The last list has the files that are
named, in the order of the search, and whether the import is replaced by the file. -/
inductive Expands (g : Graph) :
    String → List Outline.Import → List Edit → List (String × Bool) → Prop where
  | nil {importer : String} : Expands g importer [] [] []
  | again {importer : String} {d : Outline.Import} {ds : List Outline.Import} {file : SourceFile}
      {edits : List Edit} {named : List (String × Bool)}
      (hFile : g.library.resolve d.path importer = .ok file)
      (rest : Expands g importer ds edits named) :
      Expands g importer (d :: ds) (⟨d.span, ""⟩ :: edits) ((file.path, false) :: named)
  | first {importer : String} {d : Outline.Import} {ds : List Outline.Import} {file : SourceFile}
      {text : String} {unit : Outline} {inner edits : List Edit} {result : List Char}
      {innerNamed named : List (String × Bool)}
      (hFile : g.library.resolve d.path importer = .ok file) (hReads : g.Reads file text unit)
      (body : Expands g file.path unit.imports inner innerNamed)
      (hResult : Edit.splice? text.toList (Text.byteSize text.toList) 0 inner = some result)
      (rest : Expands g importer ds edits named) :
      Expands g importer (d :: ds) (⟨d.span, String.ofList result⟩ :: edits)
        ((file.path, true) :: (innerNamed ++ named))

/-- Each import is replaced by the file that it names exactly if the file has not been named before
it. The first list has the files that have been named already. -/
def FirstNamed : List String → List (String × Bool) → Prop
  | _, [] => True
  | seen, (path, isPlaced) :: rest =>
    (isPlaced = true ↔ path ∉ seen) ∧ FirstNamed (seen ++ [path]) rest

/-- The files that are put in, in the order of the search. -/
def placed (named : List (String × Bool)) : List String :=
  (named.filter Prod.snd).map Prod.fst

/-- What was named on the left counts as seen on the right. -/
theorem firstNamed_append (seen : List String) (a b : List (String × Bool)) :
    FirstNamed seen (a ++ b) ↔ FirstNamed seen a ∧ FirstNamed (seen ++ a.map Prod.fst) b := by
  induction a generalizing seen with
  | nil => simp [FirstNamed]
  | cons x rest ih =>
      obtain ⟨path, isPlaced⟩ := x
      simp [FirstNamed, ih, and_assoc]

/-- Every file that is named and was not named before is put in once. -/
theorem FirstNamed.placed {seen : List String} {named : List (String × Bool)}
    (h : FirstNamed seen named) :
    (Flatten.placed named).Nodup ∧
      ∀ a, a ∈ Flatten.placed named ↔ a ∈ named.map Prod.fst ∧ a ∉ seen := by
  induction named generalizing seen with
  | nil => simp [Flatten.placed]
  | cons x rest ih =>
      obtain ⟨path, isPlaced⟩ := x
      obtain ⟨hFirst, hRest⟩ := h
      obtain ⟨hNodup, hMem⟩ := ih hRest
      cases isPlaced with
      | false =>
          have hSeen : path ∈ seen := by simpa using hFirst
          refine ⟨hNodup, fun a => ?_⟩
          show a ∈ Flatten.placed rest ↔ _
          rw [hMem]
          simp only [List.map_cons, List.mem_cons, List.mem_append, List.not_mem_nil, or_false]
          constructor
          · rintro ⟨hNamed, hNew⟩
            exact ⟨.inr hNamed, fun hOld => hNew (.inl hOld)⟩
          · rintro ⟨rfl | hNamed, hNew⟩
            · exact absurd hSeen hNew
            · refine ⟨hNamed, ?_⟩
              rintro (hOld | rfl)
              · exact hNew hOld
              · exact hNew hSeen
      | true =>
          have hNew : path ∉ seen := by simpa using hFirst
          have hHead : Flatten.placed ((path, true) :: rest) = path :: Flatten.placed rest := rfl
          rw [hHead]
          constructor
          · refine List.nodup_cons.mpr ⟨fun hAgain => ?_, hNodup⟩
            have hLate := ((hMem path).mp hAgain).2
            simp at hLate
          · intro a
            simp only [List.mem_cons, hMem, List.map_cons, List.mem_append, List.not_mem_nil,
              or_false]
            by_cases ha : a = path
            · subst ha
              simp [hNew]
            · simp [ha]

/-- Where the search stands. The open files import each other one after the other from the source on,
the finished ones have all their imports behind them, and a file that is not open is finished exactly
if it has been named. -/
structure Searching (g : Graph) (open_ done seen : List String) : Prop where
  starts : open_.head? = some g.root
  chain : open_.IsChain g.Imports
  nodup : open_.Nodup
  files : ∀ a ∈ open_, a ≠ g.root → (g.library.find? a).isSome = true
  closed : g.Closed done
  reached : ∀ a ∈ done, g.Reaches a
  apart : ∀ a ∈ done, a ∉ open_
  named : ∀ a, a ∉ open_ → (a ∈ seen ↔ a ∈ done)
  unnamed : g.root ∉ seen

section

variable {g : Graph} {open_ done seen : List String} {a b importer : String}

theorem searching_start (g : Graph) : Searching g [g.root] [] [] where
  starts := rfl
  chain := List.isChain_singleton _
  nodup := List.nodup_singleton _
  files := fun a ha hOther => absurd (List.mem_singleton.mp ha) hOther
  closed := trivial
  reached := by simp
  apart := by simp
  named := by simp
  unnamed := by simp

namespace Searching

/-- The search never leaves the file that it started from. -/
theorem root_mem (h : Searching g open_ done seen) : g.root ∈ open_ := List.mem_of_head? h.starts

/-- There are no more open files than the library has, and the source. -/
theorem length_le (h : Searching g open_ done seen) :
    open_.length ≤ g.library.files.length + 1 := by
  have hSub : open_ ⊆ g.root :: g.library.files.map SourceFile.path := by
    intro a ha
    by_cases hRoot : a = g.root
    · exact hRoot ▸ List.mem_cons_self
    · apply List.mem_cons_of_mem
      obtain ⟨f, hFind⟩ := Option.isSome_iff_exists.mp (h.files a ha hRoot)
      have hName := List.find?_some hFind
      exact List.mem_map.mpr ⟨f, List.mem_of_find?_eq_some hFind, eq_of_beq hName⟩
  have hLength := (List.subperm_of_subset h.nodup hSub).length_le
  rw [List.length_cons, List.length_map] at hLength
  exact hLength

/-- Every file that is open can be reached from the root. -/
theorem reaches_of_mem (h : Searching g open_ done seen) (ha : a ∈ open_) : g.Reaches a := by
  obtain ⟨rest, rfl⟩ : ∃ rest, open_ = g.root :: rest := List.head?_eq_some_iff.mp h.starts
  rcases List.mem_cons.mp ha with rfl | ha
  · exact .refl
  · obtain ⟨between, after, rfl⟩ := List.append_of_mem ha
    have hChain : (g.root :: between ++ [a] ++ after).IsChain g.Imports := by
      simpa using h.chain
    exact (Graph.transGen_of_isChain hChain.left_of_append).to_reflTransGen

/-- A file that is imported while it is open. -/
theorem circular (h : Searching g open_ done seen) (hLast : open_.getLast? = some a)
    (hEdge : g.Imports a b) (hOpen : b ∈ open_) : g.Circular (circle open_ b) := by
  have hReach := h.reaches_of_mem hOpen
  have hChain := h.chain
  obtain ⟨front, rest, rfl, hFront⟩ := List.eq_append_cons_of_mem hOpen
  have hCircle : circle (front ++ b :: rest) b = b :: rest ++ [b] := by
    unfold circle
    rw [List.dropWhile_append_of_pos]
    · simp
    · intro c hc
      simpa using fun hSame : c = b => hFront (hSame ▸ hc)
  refine ⟨b, rest, hCircle, ?_, hReach⟩
  rw [hCircle, List.isChain_append]
  refine ⟨hChain.right_of_append, List.isChain_singleton _, ?_⟩
  intro x hx y hy
  rw [List.getLast?_append_cons] at hLast
  rw [hLast, Option.mem_some_iff] at hx
  rw [List.head?_cons, Option.mem_some_iff] at hy
  exact hx ▸ hy ▸ hEdge

/-- The file that a file imports is opened. -/
theorem enter (h : Searching g open_ done seen) (hLast : open_.getLast? = some a)
    (hEdge : g.Imports a b) (hOpen : b ∉ open_) (hDone : b ∉ done)
    (hFile : (g.library.find? b).isSome = true) :
    Searching g (open_ ++ [b]) done (seen ++ [b]) where
  starts := by
    rw [List.head?_append, h.starts]
    rfl
  chain := by
    rw [List.isChain_append]
    refine ⟨h.chain, List.isChain_singleton _, ?_⟩
    intro x hx y hy
    rw [hLast, Option.mem_some_iff] at hx
    rw [List.head?_cons, Option.mem_some_iff] at hy
    exact hx ▸ hy ▸ hEdge
  nodup := by
    rw [List.nodup_append]
    refine ⟨h.nodup, List.nodup_singleton _, ?_⟩
    intro x hx y hy hSame
    rw [List.mem_singleton] at hy
    exact hOpen (hy ▸ hSame ▸ hx)
  files := by
    intro c hc hOther
    rcases List.mem_append.mp hc with hc | hc
    · exact h.files c hc hOther
    · rwa [List.mem_singleton.mp hc]
  closed := h.closed
  reached := h.reached
  apart := by
    intro c hc hMem
    rcases List.mem_append.mp hMem with hMem | hMem
    · exact h.apart c hc hMem
    · exact hDone (List.mem_singleton.mp hMem ▸ hc)
  named := by
    intro c hc
    rw [List.mem_append, not_or] at hc
    rw [List.mem_append, h.named c hc.1]
    exact or_iff_left hc.2
  unnamed := by
    rw [List.mem_append, List.mem_singleton, not_or]
    exact ⟨h.unnamed, fun hRoot => hOpen (hRoot ▸ h.root_mem)⟩

/-- A file is finished after its imports. -/
theorem leave {done' seen' : List String} (h : Searching g open_ done seen) (hReach : g.Reaches b)
    (hOpen : b ∉ open_) (hInner : Searching g (open_ ++ [b]) done' seen')
    (hImports : ∀ c, g.Imports b c → c ∈ done') (hSeen : b ∈ seen') :
    Searching g open_ (b :: done') seen' where
  starts := h.starts
  chain := h.chain
  nodup := h.nodup
  files := h.files
  closed := ⟨fun hAgain => hInner.apart b hAgain (by simp), hImports, hInner.closed⟩
  reached := by
    intro c hc
    rcases List.mem_cons.mp hc with rfl | hc
    · exact hReach
    · exact hInner.reached c hc
  apart := by
    intro c hc hMem
    rcases List.mem_cons.mp hc with rfl | hc
    · exact hOpen hMem
    · exact hInner.apart c hc (List.mem_append_left _ hMem)
  named := by
    intro c hc
    by_cases hSame : c = b
    · subst hSame
      exact iff_of_true hSeen List.mem_cons_self
    · rw [hInner.named c (by simp [hc, hSame]), List.mem_cons]
      exact (or_iff_right hSame).symm
  unnamed := hInner.unnamed

/-- A file that is finished is named once more. -/
theorem again (h : Searching g open_ done seen) (hDone : b ∈ done) :
    Searching g open_ done (seen ++ [b]) :=
  { h with
    named := by
      intro c hc
      rw [List.mem_append, h.named c hc, List.mem_singleton]
      exact or_iff_left_of_imp fun hSame => hSame ▸ hDone
    unnamed := by
      rw [List.mem_append, List.mem_singleton, not_or]
      exact ⟨h.unnamed, fun hRoot => h.apart b hDone (hRoot ▸ h.root_mem)⟩ }

end Searching

/-- The imports of an open file have been gone through. -/
structure Found (g : Graph) (open_ done seen : List String) (importer : String)
    (ds : List Outline.Import) (edits : List Edit) (named : List (String × Bool))
    (done' : List String) : Prop where
  expands : Expands g importer ds edits named
  first : FirstNamed seen named
  searching : Searching g open_ done' (seen ++ named.map Prod.fst)
  grows : done ⊆ done'
  finished : ∀ d ∈ ds, ∀ f, g.library.resolve d.path importer = .ok f → f.path ∈ done'

/-- The search through the imports of an open file, which ends with what is found or in a circle. -/
def Searches (g : Graph) (n : Nat) (open_ done seen before : List String) (importer : String)
    (ds : List Outline.Import) : Prop :=
  (∃ edits named done' after,
    Gives (parts g.sources n open_ importer ds) done before edits done' after ∧
      Found g open_ done seen importer ds edits named done') ∨
  ∃ chain after, Fails (parts g.sources n open_ importer ds) done before (.cyclicImport chain) after ∧
    g.Circular chain

theorem Expands.span_eq {ds : List Outline.Import} {edits : List Edit}
    {named : List (String × Bool)} (h : Expands g importer ds edits named) :
    edits.map Edit.span = ds.map Outline.Import.span := by
  induction h with
  | nil => rfl
  | again hFile rest ih => rw [List.map_cons, List.map_cons, ih]
  | first hFile hReads body hResult rest ihBody ih => rw [List.map_cons, List.map_cons, ih]

/-- The texts for the imports of a file can be put into it. -/
theorem Expands.splice? {text : String} {unit : Outline} {edits : List Edit}
    {named : List (String × Bool)} (h : Expands g importer unit.imports edits named)
    (hSpans : unit.ImportsFit text) :
    Edit.splice? text.toList (Text.byteSize text.toList) 0 edits =
      some (edits.reverse.foldl Edit.apply text.toList) := by
  apply Edit.splice?_of_before
  · intro e he
    have hSpan : e.span ∈ unit.imports.map Outline.Import.span := by
      rw [← h.span_eq]
      exact List.mem_map_of_mem he
    obtain ⟨d, hd, hSame⟩ := List.mem_map.mp hSpan
    exact hSame ▸ hSpans.fits d hd
  · rw [h.span_eq]
    exact hSpans.before

/-- The search goes on after the first import has been replaced. -/
theorem Searches.cons {n : Nat} {before middle asked : List String} {d : Outline.Import}
    {ds : List Outline.Import} {file : SourceFile} {text : String} {head : List (String × Bool)}
    (hFile : g.library.resolve d.path importer = .ok file)
    (hGives : Gives (expand g.sources n open_ d.path importer) done before text middle asked)
    (hHead : ∀ edits named, Expands g importer ds edits named →
      Expands g importer (d :: ds) (⟨d.span, text⟩ :: edits) (head ++ named))
    (hFirst : FirstNamed seen head) (hGrows : done ⊆ middle) (hFinished : file.path ∈ middle)
    (hRest : Searches g n open_ middle (seen ++ head.map Prod.fst) asked importer ds) :
    Searches g n open_ done seen before importer (d :: ds) := by
  rcases hRest with ⟨edits, named, done', after, hParts, hFound⟩ | ⟨chain, after, hFails, hCircle⟩
  · refine .inl ⟨_, head ++ named, done', after, gives_parts_cons hGives hParts, ?_⟩
    refine ⟨hHead edits named hFound.expands, ?_, ?_, List.Subset.trans hGrows hFound.grows, ?_⟩
    · exact (firstNamed_append seen head named).mpr ⟨hFirst, hFound.first⟩
    · rw [List.map_append, ← List.append_assoc]
      exact hFound.searching
    · intro x hx f hf
      rcases List.mem_cons.mp hx with rfl | hx
      · rw [hFile, Except.ok.injEq] at hf
        exact hFound.grows (hf ▸ hFinished)
      · exact hFound.finished x hx f hf
  · refine .inr ⟨chain, after, fails_parts_cons_iff.mpr (.inr ⟨text, middle, asked, hGives, hFails⟩),
      hCircle⟩

/-- A file whose turn it is gets its own imports replaced. -/
theorem expand_of_searches {n : Nat} {before : List String} {path text : String} {unit : Outline}
    {file : SourceFile} (hFile : g.library.resolve path importer = .ok file)
    (hOpen : file.path ∉ open_) (hDone : file.path ∉ done) (hReads : g.Reads file text unit)
    (hSpans : unit.ImportsFit text)
    (hInner : Searches g n (open_ ++ [file.path]) done (seen ++ [file.path]) (before ++ [text])
      file.path unit.imports) :
    (∃ edits named done' after result,
      Gives (expand g.sources (n + 1) open_ path importer) done before (String.ofList result)
        (file.path :: done') after ∧
      Edit.splice? text.toList (Text.byteSize text.toList) 0 edits = some result ∧
      Found g (open_ ++ [file.path]) done (seen ++ [file.path]) file.path unit.imports edits named
        done') ∨
    ∃ chain after, Fails (expand g.sources (n + 1) open_ path importer) done before
      (.cyclicImport chain) after ∧ g.Circular chain := by
  have hResolve : g.sources.resolver.resolve path importer = .ok file := hFile
  have hParse : g.sources.parser.parse before text = .ok unit := hReads.2 before
  have hExpand := ending_expand_of_fresh (n := n) hResolve hOpen hDone hReads.1 before
  simp only [hParse] at hExpand
  rcases hInner with ⟨edits, named, done', after, hParts, hFound⟩ | ⟨chain, after, hFails, hCircle⟩
  · rw [Gives] at hParts
    refine .inl ⟨edits, named, done', after, _, ?_, hFound.expands.splice? hSpans, hFound⟩
    rw [Gives, hExpand, hParts]
  · rw [Fails] at hFails
    refine .inr ⟨chain, after, ?_, hCircle⟩
    rw [Fails, hExpand, hFails]

/-- The run of the search. The open files are different files of the library, so the bound is never
met, and the search ends with all files that it reaches or in a circle. -/
theorem searches (hComplete : g.Complete)
    (hSpans : ∀ asked text unit, g.parser.parse asked text = .ok unit → unit.ImportsFit text)
    {n : Nat} {before : List String} {all ds : List Outline.Import}
    (h : Searching g open_ done seen) (hLast : open_.getLast? = some a)
    (hDirects : g.Directs a importer all) (hSub : ds ⊆ all)
    (hBound : g.library.files.length + 2 ≤ n + open_.length) :
    Searches g n open_ done seen before importer ds := by
  induction n generalizing open_ done seen before a importer all ds with
  | zero =>
      have hLength := h.length_le
      omega
  | succ n ih =>
      have hReach : g.Reaches a := h.reaches_of_mem (List.mem_of_getLast? hLast)
      induction ds generalizing done seen before with
      | nil =>
          refine .inl ⟨[], [], done, before, gives_pure_iff.mpr ⟨rfl, rfl, rfl⟩, .nil, trivial, ?_,
            List.Subset.refl _, by simp⟩
          simpa using h
      | cons d ds ihRest =>
          obtain ⟨hMem, hSubRest⟩ := List.cons_subset.mp hSub
          obtain ⟨file, hFile⟩ := hComplete.resolves a importer all hReach hDirects d hMem
          have hResolve : g.sources.resolver.resolve d.path importer = .ok file := hFile
          have hEdge : g.Imports a file.path := ⟨importer, all, hDirects, d, hMem, file, hFile, rfl⟩
          by_cases hOpen : file.path ∈ open_
          · have hFails : Fails (expand g.sources (n + 1) open_ d.path importer) done before
                (.cyclicImport (circle open_ file.path)) before :=
              ending_expand_of_open hResolve hOpen done before
            exact .inr ⟨_, before, fails_parts_cons_iff.mpr (.inl hFails),
              h.circular hLast hEdge hOpen⟩
          by_cases hDone : file.path ∈ done
          · have hSeen : file.path ∈ seen := (h.named _ hOpen).mpr hDone
            have hFirst : FirstNamed seen [(file.path, false)] := ⟨by simp [hSeen], trivial⟩
            have hGives : Gives (expand g.sources (n + 1) open_ d.path importer) done before "" done
                before := ending_expand_of_done hResolve hOpen hDone before
            apply Searches.cons hFile hGives _ hFirst (List.Subset.refl _) hDone
            · exact ihRest (h.again hDone) hSubRest
            · intro edits named hExpands
              exact .again hFile hExpands
          · -- The file is opened, its imports are gone through, and it is finished.
            have hFound := Library.find?_of_resolve hFile
            have hOther : file.path ≠ g.root := by
              intro hRoot
              exact hOpen (hRoot ▸ h.root_mem)
            obtain ⟨text, hText⟩ := Comment.exists_strip file.text
            obtain ⟨unit, hUnit⟩ :=
              hComplete.reads file (hReach.tail hEdge) hOther hFound text hText
            have hDirectsFile : g.Directs file.path file.path unit.imports :=
              .file hFound hOther ⟨hText, hUnit⟩
            have hEntered := h.enter hLast hEdge hOpen hDone (by rw [hFound]; rfl)
            have hBoundFile : g.library.files.length + 2 ≤ n + (open_ ++ [file.path]).length := by
              rw [List.length_append, List.length_singleton]
              omega
            have hInner : Searches g n (open_ ++ [file.path]) done (seen ++ [file.path])
                (before ++ [text]) file.path unit.imports :=
              ih hEntered List.getLast?_concat hDirectsFile (List.Subset.refl _) hBoundFile
            rcases expand_of_searches hFile hOpen hDone ⟨hText, hUnit⟩ (hSpans [] text unit (hUnit []))
              hInner with ⟨inner, innerNamed, done', after, result, hGives, hResult, hFound'⟩ |
              ⟨chain, after, hFails, hCircle⟩
            · have hFirst : FirstNamed seen ((file.path, true) :: innerNamed) :=
                ⟨by simpa using fun hSeen => hDone ((h.named _ hOpen).mp hSeen), hFound'.first⟩
              have hImports : ∀ c, g.Imports file.path c → c ∈ done' := by
                rintro c ⟨importer', ds', hDirects', x, hx, f, hf, rfl⟩
                obtain ⟨rfl, rfl⟩ := hDirectsFile.unique hDirects'
                exact hFound'.finished x hx f hf
              apply Searches.cons hFile hGives _ hFirst
                (fun x hx => List.mem_cons_of_mem _ (hFound'.grows hx)) List.mem_cons_self
              · apply ihRest _ hSubRest
                have hLeft := h.leave (hReach.tail hEdge) hOpen hFound'.searching hImports (by simp)
                simpa using hLeft
              · intro edits named hExpands
                exact .first hFile ⟨hText, hUnit⟩ hFound'.expands hResult hExpands
            · exact .inr ⟨chain, after, fails_parts_cons_iff.mpr (.inl hFails), hCircle⟩

/-- When the imports of the source have been gone through, all files that it reaches are finished. -/
theorem Found.reaches_iff {edits : List Edit} {named : List (String × Bool)}
    (h : Found g [g.root] [] [] g.path g.unit.imports edits named done) :
    g.Reaches a ↔ a = g.root ∨ a ∈ done := by
  have hFromRoot {b : String} (hEdge : g.Imports g.root b) : b ∈ done := by
    obtain ⟨importer, ds, hDirects, d, hd, f, hf, rfl⟩ := hEdge
    obtain ⟨rfl, rfl⟩ := Graph.Directs.source.unique hDirects
    exact h.finished d hd f hf
  constructor
  · intro hReach
    induction hReach with
    | refl => exact .inl rfl
    | tail _ hEdge ih =>
        rcases ih with rfl | ih
        · exact .inr (hFromRoot hEdge)
        · exact .inr (h.searching.closed.mem_of_imports ih hEdge)
  · rintro (rfl | hDone)
    · exact .refl
    · exact h.searching.reached a hDone

/-- A search that finds everything has met no circle. -/
theorem Found.acyclic {edits : List Edit} {named : List (String × Bool)}
    (h : Found g [g.root] [] [] g.path g.unit.imports edits named done) : g.Acyclic := by
  have hClosed := h.searching.closed
  intro a hReach hCycle
  rcases h.reaches_iff.mp hReach with rfl | hDone
  · -- The first step leads to a finished file, and from there no path leads back to the source.
    obtain ⟨b, hEdge, hBack⟩ := TransGen.head'_iff.mp hCycle
    rcases h.reaches_iff.mp (ReflTransGen.single hEdge) with rfl | hDone
    · obtain ⟨importer, ds, hDirects, d, hd, f, hf, hRoot⟩ := hEdge
      obtain ⟨rfl, rfl⟩ := Graph.Directs.source.unique hDirects
      exact h.searching.apart _ (hRoot ▸ h.finished d hd f hf) List.mem_cons_self
    · exact h.searching.apart _ (hClosed.mem_of_reflTransGen hDone hBack) List.mem_cons_self
  · exact hClosed.not_transGen hDone hCycle

end

/-- The edits of a file are those of its imports; what was done on the way is forgotten. -/
theorem ending_edits (s : Sources) (path : String) (unit : Outline) (before : List String) :
    (edits s path unit).ending before =
      match ending (parts s (s.resolver.size + 1) [s.resolver.identify path] path unit.imports) []
        before with
      | (.ok (edits, _), after) => (.ok edits, after)
      | (.error e, after) => (.error e, after) := by
  show Run.ending (StateT.run (parts s (s.resolver.size + 1) _ path unit.imports) [] >>=
    fun x => pure x.1) before = _
  rw [Run.ending_bind]
  unfold ending
  cases Run.ending (StateT.run (parts s (s.resolver.size + 1) _ path unit.imports) []) before with
  | mk result after => cases result <;> rfl

/-- The pass stages the edits, and otherwise asks and fails as the search does. -/
theorem ending_imports {c : Context} {s : State} {i : Index} (hIndex : s.currentIndex = .ok i)
    (before : List String) :
    (Pass.imports.run c s).ending before =
      match (edits ⟨c.parser, c.resolver⟩ c.path i.unit).ending before with
      | (.ok edits, after) => (s.work.stage edits, after)
      | (.error e, after) => (.error e, after) := by
  show Run.ending (Run.ofExcept s.currentIndex >>= fun i =>
    edits ⟨c.parser, c.resolver⟩ c.path i.unit >>= fun edits => Run.ofExcept (s.work.stage edits))
    before = _
  rw [hIndex, Run.ofExcept_ok, pure_bind, Run.ending_bind]
  cases (edits ⟨c.parser, c.resolver⟩ c.path i.unit).ending before with
  | mk result after => cases result <;> rfl

/-- A source into which the files that it reaches have been put, each of them once, where it is named
first. -/
structure Flattened (g : Graph) (source next : Source) (edits : List Edit)
    (named : List (String × Bool)) : Prop where
  expands : Expands g g.path g.unit.imports edits named
  first : FirstNamed [] named
  once : (placed named).Nodup
  all : ∀ a, a ∈ placed named ↔ g.Reaches a ∧ a ≠ g.root
  text : Edit.splice? source.text.toList source.size 0 edits = some next.text.toList

/-- What is found for the source can be staged and applied. -/
theorem Found.flattened {g : Graph} {source : Source} {edits : List Edit}
    {named : List (String × Bool)} {done : List String}
    (h : Found g [g.root] [] [] g.path g.unit.imports edits named done)
    (hSpans : g.unit.ImportsFit source.text) :
    Batch.empty.stageAll edits = .ok ⟨edits⟩ ∧
      ∃ next, (Batch.mk edits).commit source = .ok next ∧ Flattened g source next edits named := by
  have hFits : ∀ e ∈ edits, e.span.FitsIn source.text := by
    intro e he
    have hSpan : e.span ∈ g.unit.imports.map Outline.Import.span := by
      rw [← h.expands.span_eq]
      exact List.mem_map_of_mem he
    obtain ⟨d, hd, hSame⟩ := List.mem_map.mp hSpan
    exact hSame ▸ hSpans.fits d hd
  have hBefore : (edits.map Edit.span).Pairwise Span.Before := by
    rw [h.expands.span_eq]
    exact hSpans.before
  obtain ⟨hStage, next, hCommit, hText⟩ := Batch.commit_of_before hFits hBefore
  obtain ⟨hOnce, hPlaced⟩ := h.first.placed
  refine ⟨hStage, next, hCommit, h.expands, h.first, hOnce, ?_, hText⟩
  intro a
  rw [hPlaced, h.reaches_iff]
  by_cases hRoot : a = g.root
  · subst hRoot
    have hUnnamed := h.searching.unnamed
    simp only [List.nil_append] at hUnnamed
    simp [hUnnamed]
  · have hNamed := h.searching.named a (by simpa using hRoot)
    rw [List.nil_append] at hNamed
    simp [hRoot, hNamed]

/-- The files that a source imports, for a pass that looks at its index. -/
def Graph.ofIndex (l : Library) (c : Context) (i : Index) : Graph := ⟨l, c.parser, c.path, i.unit⟩

/-- The pass that puts in imported files succeeds exactly if no file imports itself, and it gives a
source with all files put in. Otherwise it shows a circle, and it has no edits. -/
theorem run_imports {l : Library} {c : Context} {s : State} {i : Index} {asked : List String}
    (hResolver : c.resolver = l.resolver) (hIndex : s.currentIndex = .ok i)
    (hUnit : c.parser.parse asked s.source.text = .ok i.unit) (hBatch : s.work.batch = .empty)
    (hSpans : ∀ asked text unit, c.parser.parse asked text = .ok unit → unit.ImportsFit text)
    (hComplete : (Graph.ofIndex l c i).Complete) (before : List String) :
    ((Graph.ofIndex l c i).Acyclic → ∃ work after next named,
      (Pass.imports.run c s).Gives before work after ∧ work.batch.commit s.source = .ok next ∧
      Flattened (Graph.ofIndex l c i) s.source next work.batch.edits named) ∧
    (¬ (Graph.ofIndex l c i).Acyclic → ∃ chain after,
      (Pass.imports.run c s).Fails before (.cyclicImport chain) after ∧
      (Graph.ofIndex l c i).Circular chain ∧
      ∀ work after, ¬ (Pass.imports.run c s).Gives before work after) := by
  have hSearch : Searches (Graph.ofIndex l c i) (l.files.length + 1) [normalizePath c.path] [] []
      before c.path i.unit.imports :=
    searches hComplete hSpans (searching_start _) rfl .source (List.Subset.refl _) (Nat.le_refl _)
  have hEnding := ending_imports (c := c) hIndex before
  rw [hResolver, ending_edits] at hEnding
  rcases hSearch with ⟨edits, named, done, after, hParts, hFound⟩ | ⟨chain, after, hFails, hCircle⟩
  · refine ⟨fun _ => ?_, fun hCyclic => absurd hFound.acyclic hCyclic⟩
    obtain ⟨hStage, next, hCommit, hFlattened⟩ := hFound.flattened (hSpans _ _ _ hUnit)
    refine ⟨{ s.work with batch := ⟨edits⟩ }, after, next, named, ?_, hCommit, hFlattened⟩
    have hAll : ending (parts ⟨c.parser, l.resolver⟩ (l.resolver.size + 1)
        [l.resolver.identify c.path] c.path i.unit.imports) [] before =
        (.ok (edits, done), after) := hParts
    rw [hAll] at hEnding
    rw [Run.Gives, hEnding]
    show (s.work.stage edits, after) = _
    rw [Work.stage, hBatch, hStage]
    rfl
  · refine ⟨fun hAcyclic => absurd hAcyclic (Graph.not_acyclic_of_circular hCircle), fun _ => ?_⟩
    have hAll : ending (parts ⟨c.parser, l.resolver⟩ (l.resolver.size + 1)
        [l.resolver.identify c.path] c.path i.unit.imports) [] before =
        (.error (.cyclicImport chain), after) := hFails
    rw [hAll] at hEnding
    refine ⟨chain, after, hEnding, hCircle, ?_⟩
    intro work after' hGives
    rw [Run.Gives, hEnding] at hGives
    cases hGives

/-- An import that is written on some bytes. -/
def importOf (path : String) (start stop : Nat) : Outline.Item :=
  .imports ⟨path, ⟨start, stop⟩, none, [], ⟨start, stop⟩⟩

/-- Two files, of which the first imports the second. -/
def shared : Library := ⟨[⟨"b", "c;// of b\nB"⟩, ⟨"c", "C"⟩]⟩

/-- The source imports both files. -/
def sharing : Outline := ⟨[importOf "b" 0 2, importOf "c" 2 4], default⟩

def sharedContext : Context :=
  ⟨.ofTable [("b;c;M", sharing), ("c;\nB", ⟨[importOf "c" 0 2], default⟩), ("C", ⟨[], default⟩)],
    shared.resolver, "M", "m"⟩

def sharedState : State := (State.ofText "b;c;M" "M").parsed sharing

/-- Every text that the parser knows has its imports in order. -/
theorem shared_spans (asked : List String) (text : String) (unit : Outline)
    (h : sharedContext.parser.parse asked text = .ok unit) : unit.ImportsFit text := by
  have hMem := Parser.mem_of_ofTable h
  simp only [List.mem_cons, Prod.mk.injEq, List.not_mem_nil, or_false] at hMem
  rcases hMem with ⟨rfl, rfl⟩ | ⟨rfl, rfl⟩ | ⟨rfl, rfl⟩
  · exact ⟨by decide +kernel, by decide +kernel⟩
  · exact ⟨by decide +kernel, by decide +kernel⟩
  · exact ⟨by decide +kernel, by decide +kernel⟩

theorem shared_strip {f : SourceFile} {text : String} (hf : f ∈ shared.files)
    (hText : Comment.strip f.text = .ok text) :
    (f.path = "b" ∧ text = "c;\nB") ∨ (f.path = "c" ∧ text = "C") := by
  have hFirst : Comment.strip "c;// of b\nB" = .ok "c;\nB" := by cbv
  have hSecond : Comment.strip "C" = .ok "C" := by cbv
  rcases List.mem_pair.mp hf with rfl | rfl
  · exact .inl ⟨rfl, Except.ok.inj (hText.symm.trans hFirst)⟩
  · exact .inr ⟨rfl, Except.ok.inj (hText.symm.trans hSecond)⟩

theorem shared_complete :
    (Graph.ofIndex shared sharedContext (.ofSource (.ofText "b;c;M") sharing)).Complete where
  resolves := by
    intro a importer ds _ hDirects d hd
    cases hDirects with
    | source =>
        rcases List.mem_pair.mp hd with rfl | rfl
        · exact ⟨⟨"b", "c;// of b\nB"⟩, by cbv⟩
        · exact ⟨⟨"c", "C"⟩, by cbv⟩
    | @file f text unit hFile hOther hReads =>
        obtain ⟨hText, hUnit⟩ := hReads
        rcases shared_strip (List.mem_of_find?_eq_some hFile) hText with ⟨hPath, rfl⟩ | ⟨hPath, rfl⟩
        · obtain rfl : unit = ⟨[importOf "c" 0 2], default⟩ := (Except.ok.inj (hUnit [])).symm
          rw [hPath, List.mem_singleton.mp hd]
          exact ⟨⟨"c", "C"⟩, by cbv⟩
        · obtain rfl : unit = ⟨[], default⟩ := (Except.ok.inj (hUnit [])).symm
          cases hd
  reads := by
    intro f _ _ hFile text hText
    rcases shared_strip (List.mem_of_find?_eq_some hFile) hText with ⟨_, rfl⟩ | ⟨_, rfl⟩
    · exact ⟨_, fun _ => rfl⟩
    · exact ⟨_, fun _ => rfl⟩

/-- The second file goes into the first one, which names it first. The import of it in the source is
just taken out. -/
theorem shared_flattened :
    ∃ work after next named, (Pass.imports.run sharedContext sharedState).Gives [] work after ∧
      work.batch.commit sharedState.source = .ok next ∧ next.text = "C\nBM" ∧
      Flattened (Graph.ofIndex shared sharedContext (.ofSource (.ofText "b;c;M") sharing))
        sharedState.source next work.batch.edits named := by
  have hGives : (Pass.imports.run sharedContext sharedState).Gives []
      ⟨⟨[⟨⟨0, 2⟩, "C\nB"⟩, ⟨⟨2, 4⟩, ""⟩]⟩, .start "M", []⟩ ["c;\nB", "C"] := by
    cbv
  have hText : (Batch.mk [⟨⟨0, 2⟩, "C\nB"⟩, ⟨⟨2, 4⟩, ""⟩]).commit sharedState.source =
      .ok ⟨"C\nBM", "b;c;M", 1⟩ := by
    cbv
  have hIndex : sharedState.currentIndex = .ok (.ofSource (.ofText "b;c;M") sharing) := by cbv
  have hUnit : sharedContext.parser.parse [] sharedState.source.text = .ok sharing := rfl
  obtain ⟨hAcyclic, hCyclic⟩ :=
    run_imports rfl hIndex hUnit rfl shared_spans shared_complete []
  by_cases h : (Graph.ofIndex shared sharedContext (.ofSource (.ofText "b;c;M") sharing)).Acyclic
  · obtain ⟨work, after, next, named, hRun, hCommit, hFlattened⟩ := hAcyclic h
    rw [Run.Gives, hGives] at hRun
    cases hRun
    rw [hText, Except.ok.injEq] at hCommit
    subst hCommit
    exact ⟨_, _, _, named, hGives, hText, rfl, hFlattened⟩
  · obtain ⟨_, _, _, _, hNone⟩ := hCyclic h
    exact absurd hGives (hNone _ _)

end SolNorm.Flatten
