import SolNorm.Error
import SolNorm.File.Path

/-!
Finding the file that an import names. A resolver answers with the identity of the file and its
text; two imports of one file have the same identity.
-/

namespace SolNorm

/-- A file that an import names. -/
structure SourceFile where
  /-- What tells the file from others. -/
  path : String
  text : String
  deriving DecidableEq, Repr, Inhabited

/-- A way to find files. -/
structure Resolver where
  /-- The file that an import names, for the path of the file that holds the import. -/
  resolve : (path importer : String) → Except Error SourceFile
  /-- The identity of a file that is known by its path. -/
  identify : String → String
  /-- How many files there are. -/
  size : Nat

/-- A fixed set of files, by the normal spellings of their paths. -/
structure Library where
  files : List SourceFile
  deriving DecidableEq, Repr, Inhabited

namespace Library

def empty : Library := ⟨[]⟩

/-- Put a file into the set, instead of one with the same path. -/
def insert (l : Library) (path text : String) : Library :=
  let file : SourceFile := ⟨normalizePath path, text⟩
  if l.files.any fun f => f.path == file.path then
    ⟨l.files.map fun f => if f.path == file.path then file else f⟩
  else ⟨l.files ++ [file]⟩

def find? (l : Library) (path : String) : Option SourceFile :=
  l.files.find? fun f => f.path == path

/-- The path of an import as seen from the file that holds it. -/
def relativePath (path importer : String) : String :=
  let directory := ((Path.ofText importer).parent?).getD .empty
  (directory.join (Path.ofText path)).normalize.render

/-- Find an import next to the file that holds it, or else by its own path. -/
def resolve (l : Library) (path importer : String) : Except Error SourceFile :=
  match l.find? (relativePath path importer) with
  | some file => .ok file
  | none =>
    match l.find? (normalizePath path) with
    | some file => .ok file
    | none => .error (.fileNotFound path importer)

/-- The resolver that knows the files of the set only. -/
def resolver (l : Library) : Resolver := ⟨l.resolve, normalizePath, l.files.length⟩

end Library

end SolNorm
