/-!
Paths of files. A path is read as a list of names, from the root or from wherever it is used. Which
names there are is not looked up anywhere.
-/

namespace SolNorm

/-- The names of a path in their order. A single dot is kept only at the start of a path that is not
absolute, and two dots stand for the directory above. -/
structure Path where
  isAbsolute : Bool
  names : List String
  deriving DecidableEq, Repr, Inhabited

namespace Path

def empty : Path := ⟨false, []⟩

def segments (text : String) : List String :=
  (text.toList.splitOn '/').map String.ofList

def spellsAbsolute (text : String) : Bool := text.toList.head? == some '/'

/-- The path that a text spells. Repeated and final slashes mean nothing. -/
def ofText (text : String) : Path :=
  let absolute := spellsAbsolute text
  let parts := segments text
  let kept := if !absolute && parts.head? == some "." then ["."] else []
  ⟨absolute, kept ++ parts.filter fun s => s != "" && s != "."⟩

def render (p : Path) : String :=
  (if p.isAbsolute then "/" else "") ++ "/".intercalate p.names

/-- The path without its last name, if it has one. -/
def parent? (p : Path) : Option Path :=
  if p.names.isEmpty then none else some { p with names := p.names.dropLast }

def join (directory p : Path) : Path :=
  if p.isAbsolute then p else { directory with names := directory.names ++ p.names }

/-- One step along a path. Two dots take back the step before, whatever it was, and are kept where
there is none. -/
def walk (done : List String) (name : String) : List String :=
  if name == "." then done
  else if name == ".." then if done.isEmpty then [".."] else done.dropLast
  else done ++ [name]

/-- The path with the dots worked out. -/
def normalize (p : Path) : Path := { p with names := p.names.foldl walk [] }

/-- The last name up to its last dot. A dot at the start of the name does not count. -/
def stem? (p : Path) : Option String :=
  match p.names.getLast? with
  | none => none
  | some ".." => none
  | some "." => none
  | some name =>
    match name.toList.reverse.dropWhile (· != '.') with
    | [] | [_] => some name
    | _ :: rest => some (String.ofList rest.reverse)

/-- The spelling of a path that is used from a directory. -/
def joinText (directory path : String) : String :=
  if spellsAbsolute path || directory.isEmpty then path
  else if directory.toList.getLast? == some '/' then directory ++ path
  else directory ++ "/" ++ path

end Path

def normalizePath (text : String) : String := (Path.ofText text).normalize.render

end SolNorm
