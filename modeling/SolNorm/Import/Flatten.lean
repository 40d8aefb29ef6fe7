import SolNorm.File.Resolver
import SolNorm.Run
import SolNorm.Text.Comment

/-!
Putting imported files in the places of the imports. The text of a file goes where it is first
imported; any later import of it is just taken out. A file that imports itself, directly or through
others, is an error.
-/

namespace SolNorm.Flatten

/-- What imports are looked up with. -/
structure Sources where
  parser : Parser
  resolver : Resolver

/-- A step that also keeps the files that have been put in so far. -/
abbrev Step (α : Type) := StateT (List String) Run α

def failWith {α : Type} (e : Error) : Step α := fun _ => Run.ofExcept (.error e)

/-- The files from the one that is imported again to the last, and that one again. -/
def circle (open_ : List String) (path : String) : List String :=
  open_.dropWhile (· != path) ++ [path]

/-- Replace spans of a text, which have to be given in the order of the text. -/
def fill (text : String) (parts : List (Span × String)) : String :=
  String.ofList <| parts.reverse.foldl
    (fun cs (span, part) => Text.replaceRange cs span.start span.stop part.toList) text.toList

/-- The text for an import of a path in a file. `open_` holds the files that are being put in, the
outermost first; no file is in it twice, so that the number of files bounds the depth. -/
def expand (s : Sources) : Nat → List String → (path importer : String) → Step String
  | 0, open_, path, _ => failWith (.cyclicImport (circle open_ path))
  | n + 1, open_, path, importer => do
    match s.resolver.resolve path importer with
    | .error e => failWith e
    | .ok file =>
      if open_.contains file.path then failWith (.cyclicImport (circle open_ file.path))
      else if (← get).contains file.path then return ""
      else
        let text ← Run.ofExcept (Comment.strip file.text)
        let unit ← Run.ask s.parser (.parse file.path) text
        let parts ← unit.imports.mapM fun i => do
          let part ← expand s n (open_ ++ [file.path]) i.path file.path
          return (i.span, part)
        modify fun done => file.path :: done
        return fill text parts

/-- The edits that put in the files that a source imports. -/
def edits (s : Sources) (path : String) (unit : Outline) : Run (List Edit) := do
  let start := [s.resolver.identify path]
  let expandAll : Step (List Edit) := unit.imports.mapM fun i => do
    return ⟨i.span, ← expand s (s.resolver.size + 1) start i.path path⟩
  return (← expandAll.run []).1

end SolNorm.Flatten
