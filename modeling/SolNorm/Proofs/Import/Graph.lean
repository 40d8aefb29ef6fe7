import SolNorm.Proofs.Import.Step
import SolNorm.Proofs.Outline.Spans

/-!
The files that a source imports, as a graph. A node is the path that tells a file from others. The
source itself is the root; the library may have a file with the same path, which is then never read.
-/

namespace SolNorm

open Relation

/-- A file of a library is the one that is found under its path. -/
theorem Library.find?_of_resolve {l : Library} {path importer : String} {file : SourceFile}
    (h : l.resolve path importer = .ok file) : l.find? file.path = some file := by
  have hPath {name : String} (hFind : l.find? name = some file) : l.find? file.path = some file := by
    unfold find? at hFind ⊢
    have hName := List.find?_some hFind
    rwa [eq_of_beq hName]
  unfold resolve at h
  split at h
  · rename_i found hFind
    cases h
    exact hPath hFind
  · split at h
    · rename_i found hFind
      cases h
      exact hPath hFind
    · cases h

namespace Flatten

/-- A source with its path and its outline, the files that it can import, and a parser for them. -/
structure Graph where
  library : Library
  parser : Parser
  path : String
  unit : Outline

namespace Graph

variable {g : Graph}

/-- The node of the source. -/
def root (g : Graph) : String := normalizePath g.path

/-- What the files of the library are put in with. -/
def sources (g : Graph) : Sources := ⟨g.parser, g.library.resolver⟩

/-- A file is read into an outline, once its comments are removed. -/
def Reads (g : Graph) (file : SourceFile) (text : String) (unit : Outline) : Prop :=
  Comment.strip file.text = .ok text ∧ ∀ asked, g.parser.parse asked text = .ok unit

/-- The imports of a node, with the path from which they are looked up. -/
inductive Directs (g : Graph) : String → String → List Outline.Import → Prop where
  | source : Directs g g.root g.path g.unit.imports
  | file {f : SourceFile} {text : String} {unit : Outline} (hFile : g.library.find? f.path = some f)
      (hOther : f.path ≠ g.root) (hReads : g.Reads f text unit) :
      Directs g f.path f.path unit.imports

/-- The edges of the graph. -/
def Imports (g : Graph) (a b : String) : Prop :=
  ∃ importer directives, g.Directs a importer directives ∧ ∃ d ∈ directives, ∃ f,
    g.library.resolve d.path importer = .ok f ∧ f.path = b

/-- The source imports a file, directly or through others, or it is the file. -/
def Reaches (g : Graph) (a : String) : Prop := ReflTransGen g.Imports g.root a

/-- No file imports itself, directly or through others. -/
def Acyclic (g : Graph) : Prop := ∀ a, g.Reaches a → ¬ TransGen g.Imports a a

/-- Every import finds a file, and every file can be read. -/
structure Complete (g : Graph) : Prop where
  resolves : ∀ a importer directives, g.Reaches a → g.Directs a importer directives →
    ∀ d ∈ directives, ∃ f, g.library.resolve d.path importer = .ok f
  reads : ∀ f, g.Reaches f.path → f.path ≠ g.root → g.library.find? f.path = some f →
    ∀ text, Comment.strip f.text = .ok text → ∃ unit, ∀ asked, g.parser.parse asked text = .ok unit

/-- Paths along which files import each other, from one file back to it. -/
def Circular (g : Graph) (chain : List String) : Prop :=
  ∃ a between, chain = a :: between ++ [a] ∧ chain.IsChain g.Imports ∧ g.Reaches a

/-- A node has its imports in one way only. -/
theorem Directs.unique {a importer importer' : String} {ds ds' : List Outline.Import}
    (h : g.Directs a importer ds) (h' : g.Directs a importer' ds') : importer = importer' ∧ ds = ds' := by
  cases h with
  | source =>
      generalize hRoot : g.root = a at h'
      cases h' with
      | source => exact ⟨rfl, rfl⟩
      | file hFile hOther hReads => exact absurd hRoot.symm hOther
  | @file f text unit hFile hOther hReads =>
      generalize hPath : f.path = a at h'
      cases h' with
      | source => exact absurd hPath hOther
      | @file f' text' unit' hFile' hOther' hReads' =>
          rw [hPath, hFile', Option.some.injEq] at hFile
          subst hFile
          have hText : text' = text := Except.ok.inj (hReads'.1.symm.trans hReads.1)
          subst hText
          have hUnit : unit' = unit := Except.ok.inj ((hReads'.2 []).symm.trans (hReads.2 []))
          subst hUnit
          exact ⟨rfl, rfl⟩

theorem transGen_of_isChain {a b : String} {between : List String}
    (h : (a :: between ++ [b]).IsChain g.Imports) : TransGen g.Imports a b := by
  induction between generalizing a with
  | nil => exact .single (List.isChain_cons_cons.mp h).1
  | cons c rest ih =>
      obtain ⟨hEdge, hRest⟩ := List.isChain_cons_cons.mp h
      exact .head hEdge (ih hRest)

/-- A circle is a way from a file to itself. -/
theorem not_acyclic_of_circular {chain : List String} (h : g.Circular chain) : ¬ g.Acyclic := by
  obtain ⟨a, between, rfl, hChain, hReach⟩ := h
  intro hAcyclic
  exact hAcyclic a hReach (transGen_of_isChain hChain)

/-- Files with all their imports behind them, and none twice. -/
def Closed (g : Graph) : List String → Prop
  | [] => True
  | a :: rest => a ∉ rest ∧ (∀ b, g.Imports a b → b ∈ rest) ∧ g.Closed rest

theorem Closed.mem_of_imports {done : List String} {a b : String} (h : g.Closed done)
    (ha : a ∈ done) (hEdge : g.Imports a b) : b ∈ done := by
  induction done with
  | nil => cases ha
  | cons c rest ih =>
      obtain ⟨_, hFirst, hRest⟩ := h
      apply List.mem_cons_of_mem
      rcases List.mem_cons.mp ha with rfl | ha
      · exact hFirst b hEdge
      · exact ih hRest ha

/-- A closed set holds everything that its files lead to. -/
theorem Closed.mem_of_reflTransGen {done : List String} {a b : String} (h : g.Closed done)
    (ha : a ∈ done) (hPath : ReflTransGen g.Imports a b) : b ∈ done := by
  induction hPath with
  | refl => exact ha
  | tail _ hEdge ih => exact h.mem_of_imports ih hEdge

/-- No file of a closed set leads to itself. -/
theorem Closed.not_transGen {done : List String} {a : String} (h : g.Closed done) (ha : a ∈ done) :
    ¬ TransGen g.Imports a a := by
  induction done with
  | nil => cases ha
  | cons c rest ih =>
      obtain ⟨hNew, hFirst, hRest⟩ := h
      rcases List.mem_cons.mp ha with rfl | ha
      · intro hCycle
        obtain ⟨b, hEdge, hBack⟩ := TransGen.head'_iff.mp hCycle
        exact hNew (hRest.mem_of_reflTransGen (hFirst b hEdge) hBack)
      · exact ih hRest ha

end Graph

end Flatten

end SolNorm
