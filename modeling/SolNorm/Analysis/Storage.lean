import SolNorm.Index.Resolution

/-!
Variables of contracts and the functions that use them. A name in a body stands for a variable of
the contract or of an ancestor, unless the function declares the name itself.
-/

namespace SolNorm

open Outline

/-- A variable of a contract. -/
structure StorageVariable where
  contract : String
  name : String
  type : String
  isConstant : Bool
  isImmutable : Bool
  deriving DecidableEq, Repr, Inhabited

namespace StorageVariable

def id (v : StorageVariable) : String := s!"{v.contract}.{v.name}"

/-- Whether the variable takes up storage. -/
def isStored (v : StorageVariable) : Bool := !v.isConstant && !v.isImmutable

end StorageVariable

/-- The variables, and for each one that is used the functions that use it. The variables that are
used and their functions are in the order of their names. -/
structure StorageMap where
  stateVariables : List StorageVariable
  accesses : List (String × List String)
  deriving DecidableEq, Repr, Inhabited

namespace StorageMap

def empty : StorageMap := ⟨[], []⟩

/-- Put a name in its place among ordered ones, unless it is there. -/
def insertName (name : String) : List String → List String
  | [] => [name]
  | n :: rest =>
    if name == n then n :: rest
    else if name < n then name :: n :: rest
    else n :: insertName name rest

def record (id function : String) : List (String × List String) → List (String × List String)
  | [] => [(id, [function])]
  | (key, functions) :: rest =>
    if id == key then (key, insertName function functions) :: rest
    else if id < key then (id, [function]) :: (key, functions) :: rest
    else (key, functions) :: record id function rest

def functionsUsing (m : StorageMap) (id : String) : List String :=
  (m.accesses.lookup id).getD []

def variablesOf (c : Contract) : List StorageVariable :=
  c.stateVariables.filterMap fun v =>
    v.name.map fun name => ⟨c.name, name, v.type.text, v.isConstant, v.isImmutable⟩

def usedVariable? (i : Index) (c : Contract) (f : Function) (name : String) : Option String :=
  if (f.declaration? name).isSome then none
  else (i.stateVariable? c name).map fun (owner, _) => s!"{owner.name}.{name}"

/-- The uses of variables in a function, as pairs of the variable and the function. -/
def usesIn (i : Index) (c : Contract) (f : Function) : List (String × String) :=
  match f.body with
  | none => []
  | some body =>
    (body.idents.filterMap fun ident => usedVariable? i c f ident.name).map fun id =>
      (id, s!"{c.name}.{f.signature}")

/-- The variables and their uses in a source. -/
def ofIndex (i : Index) : StorageMap :=
  let uses := i.contracts.flatMap fun c => c.functions.flatMap (usesIn i c)
  ⟨i.contracts.flatMap variablesOf,
    uses.foldl (fun accesses (id, function) => record id function accesses) []⟩

end StorageMap

end SolNorm
