import SolNorm.Proofs.File.Location

/-!
How files are told apart. A library knows a file by the spelling of the normal form of its path, and
the spelling gives the normal form back. Two climbs above the start of a path cancel each other in its
normal form, which is then no shortest path any more, and files at different places are taken for one.
-/

namespace SolNorm

namespace Path

variable {p q : Path}

/-- The names of a path can stand between slashes. -/
def IsProper (p : Path) : Prop := ∀ name ∈ p.names, name ≠ "" ∧ '/' ∉ name.toList

theorem notMem_of_mem_splitOn {a : Char} {cs part : List Char} (h : part ∈ cs.splitOn a) :
    a ∉ part := by
  induction cs generalizing part with
  | nil => simp_all
  | cons c cs ih =>
      rw [List.splitOn_cons_eq_if_modifyHead] at h
      split at h
      · rcases List.mem_cons.mp h with rfl | hRest
        · exact List.not_mem_nil
        · exact ih hRest
      · rename_i hOther
        obtain ⟨first, rest, hSplit⟩ :=
          List.exists_cons_of_ne_nil (List.splitOn_ne_nil a cs)
        rw [hSplit, List.modifyHead_cons] at h
        rcases List.mem_cons.mp h with rfl | hRest
        · have hNe : a ≠ c := fun hSame => hOther (by simp [hSame])
          have hFirst : a ∉ first := ih (hSplit ▸ List.mem_cons_self)
          exact fun hMem => (List.mem_cons.mp hMem).elim hNe hFirst
        · exact ih (hSplit ▸ List.mem_cons_of_mem _ hRest)

theorem isProper_ofText (text : String) : (ofText text).IsProper := by
  intro name h
  rcases List.mem_append.mp h with hKept | hPart
  · split at hKept
    · obtain rfl := List.mem_singleton.mp hKept
      decide
    · cases hKept
  · obtain ⟨hPart, hTest⟩ := List.mem_filter.mp hPart
    obtain ⟨part, hMem, rfl⟩ := List.mem_map.mp hPart
    simp only [Bool.and_eq_true, bne_iff_ne] at hTest
    exact ⟨hTest.1, by simpa using notMem_of_mem_splitOn hMem⟩

theorem isProper_parent (h : p.IsProper) : (p.parent?.getD .empty).IsProper := by
  unfold parent?
  split
  · intro name hName
    cases hName
  · exact fun name hName => h name (List.dropLast_subset _ hName)

/-- Paths that are put together from proper ones are proper. -/
theorem IsProper.join (hp : p.IsProper) (hq : q.IsProper) : (p.join q).IsProper := by
  unfold Path.join
  split
  · exact hq
  · intro name hName
    exact (List.mem_append.mp hName).elim (hp name) (hq name)

/-- The names of a normal form are spelled as they are. -/
theorem mem_normalize {name : String} (h : p.IsProper) (hName : name ∈ p.normalize.names) :
    (name ≠ "" ∧ '/' ∉ name.toList) ∧ name ≠ "." := by
  rw [normalize_eq] at hName
  rcases List.mem_append.mp hName with hUp | hTrail
  · rw [List.eq_of_mem_replicate hUp]
    decide
  · exact ⟨h name (mem_trail hTrail).1, (mem_trail hTrail).2.1⟩

/-- Parts with slashes between them are split where the slashes are. -/
theorem segments_intercalate {parts : List String} (hSome : parts ≠ [])
    (h : ∀ part ∈ parts, '/' ∉ part.toList) : segments ("/".intercalate parts) = parts := by
  have hSplit : (['/'].intercalate (parts.map String.toList)).splitOn '/' = parts.map String.toList :=
    List.splitOn_intercalate '/' (by simpa using h) (by simpa using hSome)
  rw [segments, String.toList_intercalate, show "/".toList = ['/'] from rfl, hSplit]
  simp

/-- The parts between the slashes of a spelled path. Before the slash of an absolute path and behind
the last slash there can be nothing. -/
def parts (p : Path) : List String :=
  (if p.isAbsolute then [""] else []) ++ if p.names = [] then [""] else p.names

/-- A path is spelled by its parts with slashes between them. -/
theorem render_eq (p : Path) : p.render = "/".intercalate p.parts := by
  obtain ⟨isAbsolute, names⟩ := p
  cases isAbsolute <;> cases names <;> simp [render, parts, String.intercalate_cons_cons]

/-- The spelling of a path tells whether it is absolute. -/
theorem spellsAbsolute_render (h : p.IsProper) : spellsAbsolute p.render = p.isAbsolute := by
  obtain ⟨isAbsolute, names⟩ := p
  cases isAbsolute with
  | true => simp [spellsAbsolute, render]
  | false =>
      cases names with
      | nil => rfl
      | cons name rest =>
          obtain ⟨hSome, hSlash⟩ := h name List.mem_cons_self
          obtain ⟨c, cs, hChars⟩ := List.exists_cons_of_ne_nil (String.toList_eq_nil_iff.not.mpr hSome)
          have hFirst : c ≠ '/' := by
            rintro rfl
            exact hSlash (hChars ▸ List.mem_cons_self)
          cases rest <;> simp [spellsAbsolute, render, hChars, hFirst, String.intercalate_cons_cons]

/-- A path without single dots is known by its spelling. -/
theorem ofText_render (h : ∀ name ∈ p.names, (name ≠ "" ∧ '/' ∉ name.toList) ∧ name ≠ ".") :
    ofText p.render = p := by
  have hParts : segments p.render = p.parts := by
    rw [render_eq]
    refine segments_intercalate (by unfold parts; split <;> split <;> simp_all) fun part hPart => ?_
    rcases List.mem_append.mp hPart with hFront | hBack
    · split at hFront <;> simp_all
    · split at hBack
      · simp_all
      · exact (h part hBack).1.2
  have hNames : (p.parts.filter fun s => s != "" && s != ".") = p.names := by
    have hOwn : (p.names.filter fun s => s != "" && s != ".") = p.names :=
      List.filter_eq_self.mpr fun name hName => by simp [(h name hName).1.1, (h name hName).2]
    unfold parts
    split <;> split <;> simp_all
  have hNoDot : (!p.isAbsolute && p.parts.head? == some ".") = false := by
    unfold parts
    cases p.isAbsolute with
    | true => rfl
    | false =>
        cases hNames : p.names with
        | nil => rfl
        | cons name rest => simpa using (h name (hNames ▸ List.mem_cons_self)).2
  unfold ofText
  dsimp only
  rw [spellsAbsolute_render fun name hName => (h name hName).1, hParts, hNoDot, hNames]
  rfl

/-- Different normal forms are spelled differently. -/
theorem render_normalize_inj (hp : p.IsProper) (hq : q.IsProper) :
    p.normalize.render = q.normalize.render ↔ p.normalize = q.normalize := by
  refine ⟨fun h => ?_, fun h => by rw [h]⟩
  rw [← ofText_render fun _ hName => mem_normalize hp hName, h,
    ofText_render fun _ hName => mem_normalize hq hName]

/-- Paths have the same normal form exactly when they lead to the same place and are not parted, or lead
to different places and are conflated. -/
theorem normalize_eq_iff_sameLocation :
    p.normalize = q.normalize ↔ p.SameLocation q ∧ ¬ p.Parted q ∨ p.Conflated q := by
  rw [conflated_iff, parted_iff]
  tauto

end Path

namespace Library

/-- The path of an import as seen from the file that holds it, with its dots. -/
def seenFrom (path importer : String) : Path :=
  ((Path.ofText importer).parent?.getD .empty).join (Path.ofText path)

theorem isProper_seenFrom (path importer : String) : (seenFrom path importer).IsProper :=
  (Path.isProper_parent (Path.isProper_ofText importer)).join (Path.isProper_ofText path)

/-- To put a file in the place of another one changes what is found under its path only. -/
theorem find?_map_replace (files : List SourceFile) (file : SourceFile) (key : String) :
    (files.map fun f => if f.path == file.path then file else f).find? (fun f => f.path == key) =
      if file.path = key then (files.find? fun f => f.path == key).map fun _ => file
      else files.find? fun f => f.path == key := by
  induction files with
  | nil => simp
  | cons f rest ih =>
      rw [List.map_cons, List.find?_cons, List.find?_cons, ih]
      by_cases hSame : f.path = file.path
      · by_cases hKey : file.path = key
        · simp [hSame, hKey]
        · simp [hSame, beq_false_of_ne hKey, hKey]
      · by_cases hOwn : f.path = key
        · have hKey : ¬ file.path = key := fun hKey => hSame (hOwn.trans hKey.symm)
          simp [hOwn, hKey, Ne.symm hKey]
        · simp [hSame, beq_false_of_ne hOwn]

/-- A file that is put in is found under the normal form of its path, and all others are found as
before. -/
theorem find?_insert (l : Library) (file text key : String) :
    (l.insert file text).find? key =
      if normalizePath file = key then some ⟨normalizePath file, text⟩ else l.find? key := by
  unfold insert find?
  dsimp only
  split
  · rename_i hAny
    have hReplace := find?_map_replace l.files ⟨normalizePath file, text⟩ key
    refine hReplace.trans ?_
    dsimp only
    split
    · rename_i hKey
      have hFound : (l.files.find? fun f => f.path == key).isSome = true := by
        rw [List.find?_isSome, ← hKey]
        simpa using hAny
      obtain ⟨old, hOld⟩ := Option.isSome_iff_exists.mp hFound
      rw [hOld]
      rfl
    · rfl
  · rename_i hAny
    rw [List.find?_append]
    split
    · rename_i hKey
      have hNone : (l.files.find? fun f => f.path == key) = none := by
        rw [List.find?_eq_none, ← hKey]
        simpa using hAny
      simp [hNone, hKey]
    · rename_i hKey
      simp [hKey]

/-- An import fails only if neither the path as seen from the importer nor the path by itself is
there. -/
theorem find?_eq_none_of_resolve {l : Library} {path importer : String} {e : Error}
    (h : l.resolve path importer = .error e) :
    l.find? (seenFrom path importer).normalize.render = none ∧ l.find? (normalizePath path) = none := by
  unfold resolve at h
  split at h
  · cases h
  · rename_i hSeen
    split at h
    · cases h
    · rename_i hOwn
      exact ⟨hSeen, hOwn⟩

/-- An import that is not found is found once a file is put in whose path has the same normal form as
the path of the import, as seen from the file that holds it or as it stands. -/
theorem resolve_insert_iff {l : Library} {path importer file text : String} {e : Error}
    (h : l.resolve path importer = .error e) :
    (l.insert file text).resolve path importer = .ok ⟨normalizePath file, text⟩ ↔
      ∃ asked ∈ [seenFrom path importer, Path.ofText path],
        asked.normalize = (Path.ofText file).normalize := by
  obtain ⟨hSeen, hOwn⟩ := find?_eq_none_of_resolve h
  have hKey {asked : Path} (hAsked : asked.IsProper) :
      normalizePath file = asked.normalize.render ↔ asked.normalize = (Path.ofText file).normalize := by
    rw [eq_comm]
    exact Path.render_normalize_inj hAsked (Path.isProper_ofText file)
  have hFirst := hKey (isProper_seenFrom path importer)
  have hSecond := hKey (Path.isProper_ofText path)
  unfold resolve
  rw [show relativePath path importer = (seenFrom path importer).normalize.render from rfl,
    find?_insert, find?_insert, hSeen, hOwn]
  by_cases hFound : normalizePath file = (seenFrom path importer).normalize.render
  · simp [hFound, hFirst.mp hFound]
  · have hApart : ¬ (seenFrom path importer).normalize = (Path.ofText file).normalize :=
      fun hSame => hFound (hFirst.mpr hSame)
    rw [if_neg hFound]
    by_cases hBare : normalizePath file = normalizePath path
    · simp [hBare, hSecond.mp hBare]
    · have hOther : ¬ (Path.ofText path).normalize = (Path.ofText file).normalize :=
        fun hSame => hBare (hSecond.mpr hSame)
      simp [hBare, hApart, hOther]

end Library

/-- The normal form of a path has the names behind its steps up, and one step up if their number is odd.
It is the shortest path to the same place exactly when an absolute path steps up at the root an even
number of times, or a relative one climbs at most one step. A normal form is its own. Paths to different
places have the same normal form exactly when they are conflated, and paths to one place different ones
exactly when they are parted. So an import that a library does not find is found once a file is put in
that is at the same place and not parted from it, or at another place and conflated with it. -/
theorem Path.normalize_identifies (p : Path) :
    p.normalize = ofTrail p.isAbsolute (p.trail.climbs % 2) p.trail.names ∧
      (∀ q : Path, q.IsShortest p ↔ q = ofTrail p.isAbsolute p.climb p.trail.names) ∧
      (p.normalize.IsShortest p ↔
        if p.isAbsolute then p.trail.climbs % 2 = 0 else p.trail.climbs ≤ 1) ∧
      p.normalize.normalize = p.normalize ∧
      (∀ q, (p.normalize = q.normalize ∧ ¬ p.SameLocation q ↔ p.Conflated q) ∧
        (p.SameLocation q ∧ p.normalize ≠ q.normalize ↔ p.Parted q)) ∧
      ∀ (l : Library) (path importer file text : String) (e : Error),
        l.resolve path importer = .error e →
        ((l.insert file text).resolve path importer = .ok ⟨normalizePath file, text⟩ ↔
          ∃ asked ∈ [Library.seenFrom path importer, ofText path],
            asked.SameLocation (ofText file) ∧ ¬ asked.Parted (ofText file) ∨
              asked.Conflated (ofText file)) := by
  refine ⟨normalize_eq p, fun q => isShortest_iff, isShortest_normalize_iff, normalize_normalize p,
    fun q => ⟨conflated_iff.symm, parted_iff.symm⟩, ?_⟩
  intro l path importer file text e h
  simp only [← normalize_eq_iff_sameLocation]
  exact Library.resolve_insert_iff h

/-- A file two directories up is taken for the one that is here, and one above the root is told from
the one at the root. -/
theorem Path.climbing_conflated :
    normalizePath "../../x.sol" = "x.sol" ∧
      ¬ (ofText "../../x.sol").normalize.IsShortest (ofText "../../x.sol") ∧
      ¬ (ofText "../../x.sol").SameLocation (ofText "x.sol") ∧
      Library.empty.resolve "../../x.sol" "Main.sol" =
        .error (.fileNotFound "../../x.sol" "Main.sol") ∧
      (Library.empty.insert "x.sol" "near").resolve "../../x.sol" "Main.sol" =
        .ok ⟨"x.sol", "near"⟩ ∧
      (ofText "/../x.sol").SameLocation (ofText "/x.sol") ∧
      normalizePath "/../x.sol" = "/../x.sol" := by
  have hUp : (ofText "../../x.sol").isAbsolute = false ∧
      (ofText "../../x.sol").trail = ⟨2, ["x.sol"]⟩ := by
    decide +kernel
  have hHere : (ofText "x.sol").isAbsolute = false ∧ (ofText "x.sol").trail = ⟨0, ["x.sol"]⟩ := by
    decide +kernel
  have hRoot : (ofText "/../x.sol").isAbsolute = true ∧
      (ofText "/../x.sol").trail = ⟨1, ["x.sol"]⟩ := by
    decide +kernel
  have hTop : (ofText "/x.sol").isAbsolute = true ∧ (ofText "/x.sol").trail = ⟨0, ["x.sol"]⟩ := by
    decide +kernel
  have hConflated : (ofText "../../x.sol").Conflated (ofText "x.sol") :=
    ⟨⟨hUp.1, hHere.1⟩, by simp [hUp.2, hHere.2], by simp [hUp.2, hHere.2], by simp [hUp.2, hHere.2]⟩
  have hParted : (ofText "/../x.sol").Parted (ofText "/x.sol") :=
    ⟨⟨hRoot.1, hTop.1⟩, by simp [hRoot.2, hTop.2], by simp [hRoot.2, hTop.2]⟩
  have hMissing : Library.empty.resolve "../../x.sol" "Main.sol" =
      .error (.fileNotFound "../../x.sol" "Main.sol") := by
    rfl
  obtain ⟨-, -, hShortest, -, hForms, hFound⟩ := normalize_identifies (ofText "../../x.sol")
  refine ⟨by decide +kernel, ?_, ((hForms _).1.mpr hConflated).2, hMissing, ?_, ?_, by decide +kernel⟩
  · rw [hShortest, hUp.1, hUp.2]
    decide
  · have hHereForm : normalizePath "x.sol" = "x.sol" := by decide +kernel
    have hNear := (hFound Library.empty "../../x.sol" "Main.sol" "x.sol" "near" _ hMissing).mpr
      ⟨_, List.mem_cons_of_mem _ List.mem_cons_self, .inr hConflated⟩
    rwa [hHereForm] at hNear
  · exact (((normalize_identifies (ofText "/../x.sol")).2.2.2.2.1 _).2.mpr hParted).1

end SolNorm
