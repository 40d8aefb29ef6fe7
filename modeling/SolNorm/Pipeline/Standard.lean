import SolNorm.Analysis.Call
import SolNorm.Import.Flatten
import SolNorm.Pipeline.Basic

/-!
The passes that prepare a source: comments are removed, imported files are put in, constructors are
merged, functions that cannot be told apart get new names, and what a backend has to know about
addresses and storage is recorded.
-/

namespace SolNorm

namespace Pass

/-- A pass that needs the index and nothing else. -/
def ofIndex (run : Index → Work → Except Error Work) (_ : Context) (s : State) : Run Work := do
  Run.ofExcept (run (← Run.ofExcept s.currentIndex) s.work)

def comments : Pass :=
  { name := "comments"
    description := "Removes line and block comments outside string literals"
    run := fun _ s => Run.ofExcept (s.work.stage (Comment.removals s.source.text)) }

def imports : Pass :=
  { name := "imports"
    description := "Splices imported files in place of their import directives"
    run := fun c s => do
      let i ← Run.ofExcept s.currentIndex
      let edits ← Flatten.edits ⟨c.parser, c.resolver⟩ c.path i.unit
      Run.ofExcept (s.work.stage edits) }

def addressTypes : Pass :=
  { name := "address_types"
    description := "Marks functions whose parameters, returns or locals are addresses"
    run := ofIndex fun i w =>
      .ok { w with metadata := { w.metadata with addressFunctions := AddressUsage.all i } } }

def constructor : Pass :=
  { name := "constructor"
    description := "Merges the constructors along the main contract's inheritance chain"
    run := fun c => ofIndex (fun i w => do
      let (edits, constructors) ← Construction.merge i c.mainContract
      let staged ← w.stage edits
      return { staged with metadata := { staged.metadata with constructors } }) c }

/-- Tell functions apart that have one selector. -/
def selectors : Pass :=
  { name := "selectors"
    description := "Renames public overloads whose size-erased selectors collide"
    run := ofIndex fun i w => do
      let marking ← Collision.separateAll Selector.ofText i
      let staged ← w.stage (marking.renames.map fun r => ⟨r.span, r.name⟩)
      return { staged with metadata := { staged.metadata with marking } } }

/-- Let calls follow the functions with new names. -/
def functionCalls : Pass :=
  { name := "function_calls"
    description := "Points call sites at the renamed definitions they resolve to"
    run := ofIndex fun i w => do
      let staged ← w.stage (CallSite.edits i w.metadata.marking.renames)
      return { staged with warnings := staged.warnings ++ CallSite.issues i } }

def storage : Pass :=
  { name := "storage"
    description := "Maps state variables to the functions that reference them"
    run := ofIndex fun i w =>
      .ok { w with metadata := { w.metadata with storage := StorageMap.ofIndex i } } }

def edit (span : Span) (replacement : String) : Pass :=
  { name := "edit"
    description := "Stages one edit"
    run := fun _ s => Run.ofExcept (s.work.stage [⟨span, replacement⟩]) }

end Pass

/-- All passes, with the places where their edits are applied. -/
def Pipeline.standard : Pipeline :=
  [⟨.comments, true⟩, ⟨.imports, true⟩, ⟨.addressTypes, false⟩, ⟨.constructor, true⟩,
    ⟨.selectors, false⟩, ⟨.functionCalls, true⟩, ⟨.storage, false⟩]

def Pass.named? (name : String) : Option Pass :=
  (Pipeline.standard.map Step.pass).find? fun p => p.name == name

end SolNorm
