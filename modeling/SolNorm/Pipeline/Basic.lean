import SolNorm.Analysis.Address
import SolNorm.Analysis.Storage
import SolNorm.Constructor.Merge
import SolNorm.File.Resolver
import SolNorm.Run
import SolNorm.Selector.Collision

/-!
Running passes over a source. A pass looks at the current version of the source and stages edits or
records what it found. After a pass that is marked as a barrier the staged edits are applied, and
the new version is parsed again. A pass here is given the source and the index to look at, and what it
returns is all that it does: it neither applies edits nor changes the index. That is the contract that
passes are written to. Nothing keeps a pass that has the whole context in its hands from breaking it, so
what is said of runs is said of passes that keep to it.
-/

namespace SolNorm

/-- What the passes found out about a source. -/
structure Metadata where
  mainContract : String
  addressFunctions : List AddressUsage
  constructors : List Construction.Report
  marking : Marking
  storage : StorageMap
  deriving DecidableEq, Repr, Inhabited

def Metadata.start (mainContract : String) : Metadata :=
  ⟨mainContract, [], [], .empty, .empty⟩

/-- The result of a run. -/
structure Output where
  source : String
  metadata : Metadata
  warnings : List CallIssue
  deriving DecidableEq, Repr, Inhabited

/-- What passes hand on: staged edits and findings. -/
structure Work where
  batch : Batch
  metadata : Metadata
  warnings : List CallIssue
  deriving DecidableEq, Repr, Inhabited

namespace Work

def start (mainContract : String) : Work := ⟨.empty, .start mainContract, []⟩

def stage (w : Work) (edits : List Edit) : Except Error Work := do
  return { w with batch := ← w.batch.stageAll edits }

end Work

/-- Where a run stands. -/
structure State where
  source : Source
  index : Option Index
  work : Work
  deriving Repr, Inhabited

namespace State

/-- A source that was not parsed yet. -/
def ofText (text mainContract : String) : State := ⟨.ofText text, none, .start mainContract⟩

def currentIndex (s : State) : Except Error Index :=
  match s.index with
  | some i => if i.version = s.source.version then .ok i else .error (.staleIndex s.source.version)
  | none => .error (.staleIndex s.source.version)

def parsed (s : State) (unit : Outline) : State :=
  { s with index := some (.ofSource s.source unit) }

/-- Apply the staged edits, and parse the new version if there is one. -/
def commit (s : State) (parser : Parser) (pass : String) : Run State := do
  let source ← Run.ofExcept (s.work.batch.commit s.source)
  let next : State := { s with source, work := { s.work with batch := .empty } }
  if source.version = s.source.version then return next
  let unit ← Run.ask parser (.regression pass) source.text
  return next.parsed unit

end State

/-- What a run works with. -/
structure Context where
  parser : Parser
  resolver : Resolver
  mainContract : String
  /-- The path of the source, from which its imports are looked up. -/
  path : String

/-- A pass over the current version of a source. -/
structure Pass where
  name : String
  description : String
  run : Context → State → Run Work

/-- A pass in its place. -/
structure Step where
  pass : Pass
  /-- Whether the staged edits are applied after it. -/
  isBarrier : Bool

namespace Step

/-- Run a pass, and apply the staged edits if they are due. -/
def run (c : Context) (s : State) (step : Step) : Run State := do
  let work ← Run.within step.pass.name (step.pass.run c s)
  let next : State := { s with work }
  if step.isBarrier then next.commit c.parser step.pass.name else return next

end Step

/-- Passes in their order. -/
abbrev Pipeline := List Step

namespace Pipeline

def passNames (p : Pipeline) : List String := p.map fun s => s.pass.name

/-- Run all passes over a text. Edits that are left at the end are applied too. -/
def run (p : Pipeline) (c : Context) (text : String) : Run Output := do
  let unit ← Run.ask c.parser (.parse c.path) text
  let start := (State.ofText text c.mainContract).parsed unit
  let last ← p.foldlM (Step.run c) start
  let final ← if last.work.batch.isEmpty then pure last else last.commit c.parser "finalize"
  return ⟨final.source.text, final.work.metadata, final.work.warnings⟩

end Pipeline

end SolNorm
