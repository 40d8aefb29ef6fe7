import SolNorm.Index.Signature
import SolNorm.Selector.Erasure
import SolNorm.Selector.Renaming

/-!
Functions that cannot be told apart from outside. In every contract, the functions of one name whose
selectors coincide once sizes are erased are set apart: one keeps its name and the others get new
ones. Contracts are visited with the fewest ancestors first, so that a definition that overrides
another takes over its new name.
-/

namespace SolNorm

open Outline

/-- A new name for a definition, and where the old one is written. -/
structure Rename where
  key : FunctionKey
  name : String
  span : Span
  deriving DecidableEq, Repr, Inhabited

/-- New names, at most one for each key, in the order of the keys. -/
abbrev Renames := List Rename

namespace Renames

def find? (r : Renames) (key : FunctionKey) : Option String :=
  (List.find? (fun e => e.key == key) r).map Rename.name

/-- Put in a new name, instead of the one for the same key. -/
def insert (new : Rename) : Renames → Renames
  | [] => [new]
  | e :: rest =>
    if e.key == new.key then new :: rest
    else if new.key.before e.key then new :: e :: rest
    else e :: insert new rest

end Renames

/-- A function among those of one name that cannot be told apart. -/
structure MarkedFunction where
  contract : String
  name : String
  newName : Option String
  oldSelector : Selector
  selector : Selector
  types : List String
  erasedTypes : List String
  deriving DecidableEq, Repr, Inhabited

/-- The functions that could not be told apart, and the new names for them. -/
structure Marking where
  entries : List MarkedFunction
  renames : Renames
  deriving DecidableEq, Repr, Inhabited

def Marking.empty : Marking := ⟨[], []⟩

namespace Collision

/-- A type as it is passed from outside: a contract is passed as its address, and sizes are not
passed. -/
def outsideType (i : Index) (type : String) : String :=
  let element := elementType type
  match i.contract? element with
  | some _ => eraseSizes ("address" ++ String.ofList (type.toList.drop element.length))
  | none => eraseSizes type

/-- The selector of a function of the given types, as they are passed from outside. -/
def outsideSelector (hash : String → Selector) (i : Index) (name : String)
    (types : List String) : Selector :=
  hash (signatureText name (types.map (outsideType i)))

/-- The new name that a definition of a family has already. -/
def inheritedName? (r : Renames) (f : Family) : Option String :=
  f.definitions.findSome? fun d => r.find? d.key

def rename (r : Renames) (name : String) (d : FunctionRef) : Except Error Renames :=
  match d.function.nameSpan with
  | some span => .ok (r.insert ⟨d.key, name, span⟩)
  | none => .error (.invariant s!"function {d.key.render} has no name span")

def renameFamily (r : Renames) (name : String) (f : Family) : Except Error Renames :=
  f.definitions.foldlM (fun r d => rename r name d) r

/-- The names that a new name in a contract may not be: the new names given so far, and those of the
functions of all contracts that inherit the contract, and of their ancestors. -/
def takenNames (i : Index) (r : Renames) (c : Contract) : Except Error (List String) := do
  let chains ← i.contracts.mapM fun other => i.linearize other.name
  let around := chains.filter fun chain => chain.any fun a => a.name == c.name
  return r.map Rename.name ++
    around.flatMap fun chain => chain.flatMap fun a => a.functions.map Function.name

/-- The selectors that a new function in a contract may not have. -/
def takenSelectors (hash : String → Selector) (i : Index) (r : Renames)
    (groups : List (String × List Family)) : List Selector :=
  (groups.flatMap Prod.snd).map fun f =>
    outsideSelector hash i ((inheritedName? r f).getD f.name) f.types

/-- The sets of at least two families of one name that have one selector. -/
def collisions (hash : String → Selector) (i : Index) (families : List Family) :
    List (Selector × List Family) :=
  (groupByKey (fun f => outsideSelector hash i f.name f.types) families).filter
    fun s => 2 ≤ s.2.length

/-- The family that keeps its name: the first without types of unknown size, or else the first. -/
def keeper? (pending : List Family) : Option Family :=
  match pending.find? fun f => !f.types.any isDynamic with
  | some f => some f
  | none => pending.head?

/-- What is known while the functions of a contract are told apart. -/
structure State where
  names : List String
  selectors : List Selector
  renames : Renames
  deriving Repr, Inhabited

/-- Find a new name for a family and give it to the family. -/
def renameFresh (hash : String → Selector) (i : Index) (s : State) (f : Family) :
    Except Error State := do
  let selector (name : String) : Selector := outsideSelector hash i name f.types
  match Renaming.freshName? s.names s.selectors selector (Renaming.extend f.name f.types) with
  | some name =>
    return ⟨name :: s.names, selector name :: s.selectors, ← renameFamily s.renames name f⟩
  | none => throw (.noNewName f.name)

/-- Give a family the new name that one of its definitions has. -/
def passOn (s : State) (f : Family) : Except Error State :=
  match inheritedName? s.renames f with
  | some name => do return { s with renames := ← renameFamily s.renames name f }
  | none => return s

/-- Tell apart families of one selector. Names are passed on first; of the families that have none,
one keeps the name it has. -/
def separate (hash : String → Selector) (i : Index) (s : State) (members : List Family) :
    Except Error State := do
  let pending := members.filter fun f => (inheritedName? s.renames f).isNone
  let s ← members.foldlM passOn s
  let renamed := pending.filter fun f => some f != keeper? pending
  renamed.foldlM (renameFresh hash i) s

/-- The entry for a family after it has been told apart from others. -/
def entry (hash : String → Selector) (i : Index) (c : Contract) (r : Renames)
    (oldSelector : Selector) (f : Family) : MarkedFunction :=
  let newName := r.find? f.effective.key
  { contract := c.name
    name := f.name
    newName
    oldSelector
    selector := outsideSelector hash i (newName.getD f.name) f.types
    types := f.types
    erasedTypes := f.types.map (outsideType i) }

/-- Tell apart the families of one set, and add their entries to those found so far. -/
def separateSet (hash : String → Selector) (i : Index) (c : Contract)
    (found : State × List MarkedFunction) (set : Selector × List Family) :
    Except Error (State × List MarkedFunction) := do
  let s ← separate hash i found.1 set.2
  return (s, found.2 ++ set.2.map (entry hash i c s.renames set.1))

/-- Tell apart the functions of a contract. -/
def separateContract (hash : String → Selector) (i : Index) (m : Marking) (c : Contract) :
    Except Error Marking := do
  let groups ← i.signatureGroups c
  let names ← takenNames i m.renames c
  let start : State := ⟨names, takenSelectors hash i m.renames groups, m.renames⟩
  let sets := groups.flatMap fun group => collisions hash i group.2
  let (s, entries) ← sets.foldlM (separateSet hash i c) (start, [])
  return ⟨m.entries ++ entries, s.renames⟩

/-- Tell apart the functions of all contracts, the contracts with the fewest ancestors first. -/
def separateAll (hash : String → Selector) (i : Index) : Except Error Marking := do
  let depths ← i.contracts.mapM fun c => do return ((← i.linearize c.name).length, c)
  let ordered := depths.mergeSort fun a b => a.1 ≤ b.1
  (ordered.map Prod.snd).foldlM (separateContract hash i) .empty

end Collision

end SolNorm
