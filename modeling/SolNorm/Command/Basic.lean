import SolNorm.Backend.Request
import SolNorm.Command.Arguments
import SolNorm.File.Disk
import SolNorm.Pipeline.Standard

/-!
The command. It prepares a file and prints the result or writes it into a directory. What it does
is worked out from what is on the disk, without touching it.
-/

namespace SolNorm

/-- Run the standard passes over a file. -/
def prepareFile (d : Disk) (includes : List String) (mainContract path : String) :
    Except Error Output := do
  let text ← d.read path
  let context : Context := ⟨.solidity, d.resolver includes, mainContract, path⟩
  (Pipeline.standard.run context text).outcome.1

namespace Command

def version : String := "0.1.0"

def helpText : String :=
  "Normalizes a contract source for an alternate compiler backend

Usage: prepass [OPTIONS] <MAIN_CONTRACT> <SOURCE>

Arguments:
  <MAIN_CONTRACT>  Contract to compile
  <SOURCE>         Source file containing or importing the main contract

Options:
      --print-ir       Print the backend output
      --runs <N>       Optimizer iteration count
      --yul-details    Enable detailed Yul optimization
      --inliner        Enable the inliner
      --config <FILE>  JSON file with backend settings
      --include <DIR>  Additional import search directory
      --out-dir <DIR>  Write the rewritten source and metadata to this directory
  -h, --help           Print help
  -V, --version        Print version
"

/-- What is printed if the arguments cannot be used. -/
def usageText : String :=
  "error: the arguments cannot be used

Usage: prepass [OPTIONS] <MAIN_CONTRACT> <SOURCE>

For more information, try '--help'.
"

/-- What a call of the command comes to. Files are written before anything is printed. -/
structure Outcome where
  exitCode : Nat
  stdout : String
  stderr : String
  /-- A directory that has to be there before the files are written. -/
  directory : Option String
  files : List (String × String)
  deriving DecidableEq, Repr, Inhabited

/-- A failed call, with the messages from the outermost to the innermost. -/
def failed (exitCode : Nat) (messages : List String) : Outcome :=
  ⟨exitCode, "", "error: " ++ ": ".intercalate messages ++ "\n", none, []⟩

def failedWith (e : Error) : Outcome := failed e.exitCode e.chain

/-- The settings for a request. What the arguments ask for goes before what the file says. -/
def settingsFor (d : Disk) (r : Request) : Except Error Settings := do
  let base ←
    match r.settingsFile with
    | some path => Settings.read (← d.read path)
    | none => pure .usual
  return ⟨r.runs.getD base.runs, base.yulDetails || r.yulDetails, base.inliner || r.inliner⟩

/-- Why a directory cannot be made, if something is in the way. -/
def obstacle? (d : Disk) (directory : String) : Option String :=
  let isFile (path : String) : Bool :=
    match d.look path with
    | .file .. => true
    | _ => false
  let p := Path.ofText directory
  if isFile p.render then some "File exists (os error 17)"
  else if (List.range p.names.length).any fun n =>
      isFile (Path.render { p with names := p.names.take n }) then
    some "Not a directory (os error 20)"
  else none

/-- The files that hold a result, named after the source. -/
def outputFiles (directory source : String) (o : Output) : List (String × String) :=
  let stem := ((Path.ofText source).stem?).getD "out"
  [(Path.joinText directory s!"{stem}.prepass.sol", o.source),
    (Path.joinText directory s!"{stem}.prepass.json", o.toJson.pretty)]

def outcomeOf (d : Disk) (r : Request) (o : Output) (request : String) : Outcome :=
  let warnings := String.join (o.warnings.map fun w => s!"warning: {w.message}\n")
  let printed := if r.printsRequest then request ++ "\n" else ""
  match r.outputDirectory with
  | some directory =>
    match obstacle? d directory with
    | some reason => failed 1 [s!"creating {directory}", reason]
    | none => ⟨0, printed, warnings, some directory, outputFiles directory r.source o⟩
  | none =>
    let source := if r.printsRequest then "" else o.source ++ "\n"
    ⟨0, source ++ printed, warnings, none, []⟩

def carryOut (d : Disk) (r : Request) : Outcome :=
  match settingsFor d r with
  | .error e =>
    failed e.exitCode (("loading backend settings from " ++ r.settingsFile.getD "") :: e.chain)
  | .ok settings =>
    match prepareFile d r.includes r.mainContract r.source with
    | .error e => failedWith e
    | .ok o =>
      match Backend.compile settings o.source o.metadata with
      | .error e => failedWith e
      | .ok request => outcomeOf d r o request

def run (d : Disk) : Call → Outcome
  | .run r => carryOut d r
  | .help => ⟨0, helpText, "", none, []⟩
  | .version => ⟨0, s!"prepass {version}\n", "", none, []⟩
  | .misuse => ⟨2, "", usageText, none, []⟩

def Outcome.writtenTo (o : Outcome) (i : DiskImage) : DiskImage :=
  let prepared := (o.directory.map i.makeDirectory).getD i
  o.files.foldl (fun i (path, text) => i.write path text.toUTF8.data.toList) prepared

def Request.paths (r : Request) : List String :=
  let directory := (r.outputDirectory.map Path.ofText).getD .empty
  r.source :: r.settingsFile.toList ++ (List.range (directory.names.length + 1)).map fun n =>
    Path.render { directory with names := directory.names.take n }

def Request.importedPaths (r : Request) (file text : String) : List String :=
  match (Comment.strip text).toOption.bind fun t => (Outline.parse t).toOption with
  | some unit => unit.imports.flatMap fun i => Disk.candidates r.includes i.path file
  | none => []

end Command

end SolNorm
