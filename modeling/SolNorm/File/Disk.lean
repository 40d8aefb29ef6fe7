import SolNorm.File.Resolver

/-!
Files on a disk. A disk tells what is at a path; imports are looked for next to the file that holds
them and then in further directories.
-/

namespace SolNorm

/-- What is at a path. -/
inductive Entry where
  /-- A file with its one absolute path, and its text if it is text. -/
  | file (path : String) (text : Option String)
  | directory
  | absent
  deriving DecidableEq, Repr, Inhabited

/-- A disk as it is seen from the working directory. -/
structure Disk where
  look : String → Entry
  /-- How many files there are. -/
  size : Nat

namespace Disk

def read (d : Disk) (path : String) : Except Error String :=
  match d.look path with
  | .file _ (some text) => .ok text
  | .file _ none => .error (.io s!"{path} is not valid text")
  | .directory => .error (.io s!"{path} is a directory")
  | .absent => .error (.io s!"{path} does not exist")

/-- The paths at which an import is looked for, in this order. -/
def candidates (includes : List String) (path importer : String) : List String :=
  let directory := (((Path.ofText importer).parent?).map Path.render).getD ""
  Path.joinText directory path :: includes.map fun i => Path.joinText i path

/-- Find an import. The first file among the candidates is taken, and has to be text. -/
def resolve (d : Disk) (includes : List String) (path importer : String) :
    Except Error SourceFile :=
  let found := (candidates includes path importer).findSome? fun candidate =>
    match d.look candidate with
    | .file absolute text => some (absolute, text)
    | _ => none
  match found with
  | some (absolute, some text) => .ok ⟨absolute, text⟩
  | some (absolute, none) => .error (.io s!"{absolute} is not valid text")
  | none => .error (.fileNotFound path importer)

/-- The identity of a file: its absolute path if it is on the disk. -/
def identify (d : Disk) (path : String) : String :=
  match d.look path with
  | .file absolute _ => absolute
  | _ => normalizePath path

def resolver (d : Disk) (includes : List String) : Resolver :=
  ⟨d.resolve includes, d.identify, d.size⟩

end Disk

/-- The files of a disk by the names on the way to them from the root, with their bytes, and the way
to the working directory. There are no directories but those on the way to a file and those that
are listed. -/
structure DiskImage where
  files : List (List String × List UInt8)
  directories : List (List String)
  workingDirectory : List String
  deriving Repr, Inhabited

namespace DiskImage

/-- Whether there is a directory at the end of a way. -/
def isDirectory (i : DiskImage) (names : List String) : Bool :=
  (i.workingDirectory :: i.directories ++ i.files.map fun f => f.1.dropLast).any fun d =>
    names.isPrefixOf d

/-- The bytes of the file at the end of a way. -/
def bytes? (i : DiskImage) (names : List String) : Option (List UInt8) :=
  (i.files.find? fun f => f.1 == names).map Prod.snd

/-- One step on a way, which is possible from a directory only. Above the root is the root. -/
def step (i : DiskImage) (done : List String) (name : String) : Option (List String) :=
  if !i.isDirectory done then none
  else if name == "" || name == "." then some done
  else if name == ".." then some done.dropLast
  else
    let next := done ++ [name]
    if i.isDirectory next || (i.bytes? next).isSome then some next else none

/-- The way to what a path names, if it is there. A path with a slash at its end names a
directory. -/
def locate (i : DiskImage) (path : String) : Option (List String) :=
  if path.isEmpty then none
  else
    let start := if Path.spellsAbsolute path then [] else i.workingDirectory
    (Path.segments path).foldlM i.step start

def look (i : DiskImage) (path : String) : Entry :=
  match i.locate path with
  | none => .absent
  | some names =>
    match i.bytes? names with
    | some bytes =>
      .file (Path.render ⟨true, names⟩) (String.fromUTF8? (ByteArray.mk bytes.toArray))
    | none => .directory

/-- The way that a path names, whether there is something at its end or not. -/
def wayTo (i : DiskImage) (p : Path) : List String :=
  p.names.foldl (fun done name =>
    if name == "." then done else if name == ".." then done.dropLast else done ++ [name])
    (if p.isAbsolute then [] else i.workingDirectory)

/-- The disk with a directory at a path, and with those on the way to it. -/
def makeDirectory (i : DiskImage) (path : String) : DiskImage :=
  let p := Path.ofText path
  let ways := (List.range (p.names.length + 1)).map fun n =>
    i.wayTo { p with names := p.names.take n }
  { i with directories := i.directories ++ ways }

def write (i : DiskImage) (path : String) (bytes : List UInt8) : DiskImage :=
  let way := i.wayTo (Path.ofText path)
  { i with files := (way, bytes) :: i.files.filter fun f => f.1 != way }

/-- The disk. -/
def disk (i : DiskImage) : Disk := ⟨i.look, i.files.length⟩

end DiskImage

end SolNorm
