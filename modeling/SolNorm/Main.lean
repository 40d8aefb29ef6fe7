import SolNorm.Command.Basic

/-!
The program. It looks up what the command may ask for, works out what the command comes to, and
then writes and prints that.
-/

namespace SolNorm.Command

def readText? (path : String) : IO (Option String) := do
  try
    return String.fromUTF8? (← IO.FS.readBinFile path)
  catch _ => return none

def lookUp (path : String) : IO Entry := do
  try
    let real ← IO.FS.realPath path
    if ← real.isDir then return .directory
    return .file real.toString (← readText? real.toString)
  catch _ => return .absent

/-- Look up paths, and those that the imports of the files found there lead to. -/
partial def gather (r : Request) (known : List (String × Entry)) :
    List String → IO (List (String × Entry))
  | [] => return known
  | path :: rest => do
    if (known.lookup path).isSome then gather r known rest
    else
      let entry ← lookUp path
      let imported :=
        match entry with
        | .file real (some text) => r.importedPaths path text ++ r.importedPaths real text
        | _ => []
      gather r ((path, entry) :: known) (rest ++ imported)

/-- The disk as far as a call of the command looks at it. -/
def diskFor : Call → IO Disk
  | .run r => do
    let known ← gather r [] r.paths
    return ⟨fun path => (known.lookup path).getD .absent, known.length⟩
  | _ => return ⟨fun _ => .absent, 0⟩

def Outcome.write (o : Outcome) : IO Unit := do
  if let some directory := o.directory then
    if !directory.isEmpty then IO.FS.createDirAll directory
  for (path, text) in o.files do
    IO.FS.writeFile path text

end SolNorm.Command

open SolNorm.Command in
/-- Run the command with the arguments of the program. -/
def main (args : List String) : IO UInt32 := do
  let call := read args
  let outcome := run (← diskFor call) call
  try
    outcome.write
  catch e =>
    IO.eprintln s!"error: {e}"
    return 1
  IO.print outcome.stdout
  IO.eprint outcome.stderr
  return outcome.exitCode.toUInt32
