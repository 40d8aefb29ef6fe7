import SolNorm.Constructor.Plan
import SolNorm.Text.Edit

/-!
Merging constructors in the source. If a base of the main contract has a constructor with
parameters, the constructors of all its bases are converted into functions, and the main contract
calls them. Other contracts that can be deployed and inherit a converted base have to call the
functions too, unless one of their bases does it.
-/

namespace SolNorm.Construction

open Outline

def bodySpan (owner : Contract) (f : Function) : Except Error Span :=
  match f.body with
  | some body => .ok body.span
  | none => .error (.invariant s!"constructor of '{owner.name}' has no body")

/-- Make a function of the constructor of a base. Calls of its own bases are taken out of the
header. -/
def convert (i : Index) (base : Contract) (f : Function) : Except Error Edit := do
  let body ← bodySpan base f
  let kept := f.modifiers.filter fun m => (i.contract? m.name).isNone
  let modifiers := String.join (kept.map fun m => " " ++ m.span.slice i.text)
  let header := "function " ++ initializerName base.name ++ f.paramsSpan.slice i.text ++
    " internal" ++ modifiers ++ " "
  return ⟨⟨f.span.start, body.start⟩, header⟩

/-- Take out the arguments that a contract gives to converted bases. The header of a constructor
that is replaced anyway is left alone. -/
def removedArguments (converted replaced : List String) (c : Contract) : List Edit :=
  let isConverted (m : Invocation) : Bool := converted.contains (lastSegment m.name)
  let atBases := (c.bases.filter isConverted).filterMap fun b =>
    b.argsSpan.map fun span => (⟨span, ""⟩ : Edit)
  let modifiers :=
    if converted.contains c.name || replaced.contains c.name then []
    else (c.constructor?.map Function.modifiers).getD []
  atBases ++ (modifiers.filter isConverted).map fun m => ⟨m.span, ""⟩

def conversionEdits (i : Index) (bases : List Contract) (converted replaced : List String) :
    Except Error (List Edit) := do
  let headers ← (bases.filterMap fun b => b.constructor?.map fun f => (b, f)).mapM fun (b, f) =>
    convert i b f
  return headers ++ i.contracts.flatMap (removedArguments converted replaced)

/-- Whether a modifier is left out of the header of a merged constructor, because the base that it
names has no constructor any more. -/
def isDropped (i : Index) (converted : List String) (m : Invocation) : Bool :=
  converted.contains (lastSegment m.name) ||
    ((i.contract? (lastSegment m.name)).map fun c => c.constructor?.isNone).getD false

/-- The edits that write the merged constructor of a plan. -/
def mergeEdits (i : Index) (converted : List String) (p : Plan) : Except Error (List Edit) := do
  let calls := String.join (p.report.initializers.map fun call => "\n        " ++ call ++ ";")
  let parameters := ", ".intercalate p.report.parameters
  match p.contract.constructor? with
  | some f =>
    let body ← bodySpan p.contract f
    let attributes := f.attributes.map fun a => " " ++ a.text
    let kept := f.modifiers.filter fun m => !isDropped i converted m
    let modifiers := kept.map fun m => " " ++ m.span.slice i.text
    let header := s!"constructor({parameters})" ++ String.join (attributes ++ modifiers) ++ " "
    return [⟨⟨f.span.start, body.start⟩, header⟩, ⟨.point (body.start + 1), calls⟩]
  | none =>
    let text := s!"\n    constructor({parameters}) \x7b{calls}\n    \x7d\n"
    return [⟨.point (p.contract.bodySpan.start + 1), text⟩]

/-- The contracts that can be deployed, other than the main one. -/
def otherConcrete (i : Index) (main : Contract) : List Contract :=
  i.contracts.filter fun c => c.isConcrete && c.name != main.name

def unchangedReport? (i : Index) (c : Contract) : Option Report :=
  match plan i c fun _ => true with
  | .ok p => some p.report
  | .error _ => none

/-- The ancestors of the contracts that inherit a converted base and are not ancestors of the main
contract, by name. -/
def affectedChains (i : Index) (mainChain converted : List String) :
    List (String × List Contract) :=
  (i.contracts.filter fun c => c.isConcrete && !mainChain.contains c.name).filterMap fun c =>
    match i.linearize c.name with
    | .ok chain =>
      if chain.dropLast.any fun b => converted.contains b.name then some (c.name, chain) else none
    | .error _ => none

/-- The converted bases that are initialized by the constructor of an affected base. -/
def coveredBases (affected : List (String × List Contract)) (converted : List String)
    (chain : List Contract) : List String :=
  let chains := chain.dropLast.filterMap fun b => affected.lookup b.name
  (chains.flatMap fun c => c.map Contract.name).filter converted.contains

def affectedPlan (i : Index) (affected : List (String × List Contract)) (converted : List String)
    (c : Contract) (chain : List Contract) : Except Error Plan := do
  let covered := coveredBases affected converted chain
  let p ← plan i c fun b => converted.contains b.name && !covered.contains b.name
  return { p with report := { p.report with isApplied := !p.report.initializers.isEmpty } }

/-- The place of a contract among all, for the order of reports. -/
def rankOf (i : Index) (name : String) : Nat := i.contracts.findIdx fun c => c.name == name

/-- The edits for all contracts, and the reports with that of the main contract first, if
constructors have to be merged. -/
def mergeFor (i : Index) (main : Plan) : Except Error (List Edit × List Report) := do
  let bases := main.chain.dropLast
  let converted := (bases.filter fun b => b.constructor?.isSome).map Contract.name
  let affected := affectedChains i (main.chain.map Contract.name) converted
  let others := otherConcrete i main.contract
  let plans ← (others.filterMap fun c => (affected.lookup c.name).map fun chain =>
    (c, chain)).mapM fun (c, chain) => affectedPlan i affected converted c chain
  let applied := plans.filter fun p => p.report.isApplied
  let replaced := ((main :: applied).filter fun p => p.contract.constructor?.isSome).map
    fun p => p.contract.name
  let conversions ← conversionEdits i bases converted replaced
  let merges ← (main :: applied).mapM (mergeEdits i converted)
  let unchanged := (others.filter fun c => (affected.lookup c.name).isNone).filterMap
    (unchangedReport? i)
  let reports := (unchanged ++ plans.map Plan.report).mergeSort fun a b =>
    rankOf i a.contract ≤ rankOf i b.contract
  return (conversions ++ merges.flatten, { main.report with isApplied := true } :: reports)

/-- The edits that merge constructors for the main contract, and the reports with that of the main
contract first. Nothing is changed if no base constructor has parameters. -/
def merge (i : Index) (name : String) : Except Error (List Edit × List Report) := do
  let main ← i.contract name
  let p ← plan i main fun _ => true
  if p.report.isNeeded then mergeFor i p
  else return ([], p.report :: (otherConcrete i main).filterMap (unchangedReport? i))

end SolNorm.Construction
