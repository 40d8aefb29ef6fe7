import SolNorm.Index.Linearization

/-!
Functions and their signatures. A function is known by its contract, its name and the types of its
parameters. Along the ancestors of a contract, the functions of one name and one list of types form
a family, of which the last definition is the one that counts.
-/

namespace SolNorm

open Outline

/-- What a function is known by in every version of a source. -/
structure FunctionKey where
  contract : String
  name : String
  types : List String
  deriving DecidableEq, Repr, Inhabited

namespace FunctionKey

def render (k : FunctionKey) : String :=
  s!"{k.contract}.{k.name}(" ++ ",".intercalate k.types ++ ")"

/-- Whether a list of texts comes before another, entry by entry. -/
def listBefore : List String → List String → Bool
  | _, [] => false
  | [], _ :: _ => true
  | a :: as, b :: bs => a < b || (a == b && listBefore as bs)

/-- The order of keys: by contract, then by name, then by types. -/
def before (a b : FunctionKey) : Bool :=
  a.contract < b.contract || (a.contract == b.contract &&
    (a.name < b.name || (a.name == b.name && listBefore a.types b.types)))

end FunctionKey

/-- A function with the contract that declares it. -/
structure FunctionRef where
  contract : Contract
  function : Function
  deriving DecidableEq, Repr, Inhabited

namespace FunctionRef

def key (r : FunctionRef) : FunctionKey :=
  ⟨r.contract.name, r.function.name, r.function.parameterTypes⟩

/-- Whether the function can be called from outside its contract. -/
def isExposed (r : FunctionRef) : Bool :=
  match r.function.visibility with
  | some .internally | some .privately => false
  | _ => true

end FunctionRef

/-- The definitions of one name and one list of parameter types, from the most basic contract to the
most derived. -/
structure Family where
  name : String
  types : List String
  first : FunctionRef
  rest : List FunctionRef
  deriving DecidableEq, Repr, Inhabited

namespace Family

def definitions (f : Family) : List FunctionRef := f.first :: f.rest

/-- The definition that counts. -/
def effective (f : Family) : FunctionRef := f.rest.getLast?.getD f.first

def holds (f : Family) (r : FunctionRef) : Bool :=
  f.name == r.function.name && f.types == r.function.parameterTypes

def ofRef (r : FunctionRef) : Family := ⟨r.function.name, r.function.parameterTypes, r, []⟩

end Family

/-- Add a definition to its family, which is put last if it is new. -/
def addToFamilies (families : List Family) (r : FunctionRef) : List Family :=
  if families.any fun f => f.holds r then
    families.map fun f => if f.holds r then { f with rest := f.rest ++ [r] } else f
  else families ++ [.ofRef r]

/-- Put an entry to the others of its key. A key is put last if it is new. -/
def addByKey {κ α : Type} [BEq κ] (key : α → κ) (groups : List (κ × List α)) (a : α) :
    List (κ × List α) :=
  if groups.any fun g => g.1 == key a then
    groups.map fun g => if g.1 == key a then (g.1, g.2 ++ [a]) else g
  else groups ++ [(key a, [a])]

/-- The entries of a list by their keys, in the order in which the keys come. -/
def groupByKey {κ α : Type} [BEq κ] (key : α → κ) (entries : List α) : List (κ × List α) :=
  entries.foldl (addByKey key) []

/-- The ordinary functions along some contracts. -/
def ordinaryFunctions (chain : List Contract) : List FunctionRef :=
  chain.flatMap fun c =>
    (c.functions.filter fun f => f.kind == .function).map fun f => ⟨c, f⟩

/-- The families of the functions along some contracts, in the order of their first definitions. -/
def familiesOf (chain : List Contract) : List Family :=
  (ordinaryFunctions chain).foldl addToFamilies []

/-- The families that can be called from outside, by name. -/
def groupsOf (chain : List Contract) : List (String × List Family) :=
  groupByKey Family.name ((familiesOf chain).filter fun f => f.effective.isExposed)

/-- Add a function to those that are seen, unless one of them has the same parameter types. -/
def addUnlessHidden (seen : List FunctionRef) (r : FunctionRef) : List FunctionRef :=
  if seen.any fun s => s.function.parameterTypes == r.function.parameterTypes then seen
  else seen ++ [r]

/-- The functions of a name that can be seen along some contracts, the most derived contract first:
of each list of parameter types the most derived definition. -/
def visibleOverloads (chain : List Contract) (name : String) : List FunctionRef :=
  let named := chain.reverse.flatMap fun c =>
    (c.functionsNamed name).map fun f => (⟨c, f⟩ : FunctionRef)
  named.foldl addUnlessHidden []

/-- The families of a contract that can be called from outside, by name. -/
def Index.signatureGroups (i : Index) (c : Contract) :
    Except Error (List (String × List Family)) := do
  return groupsOf (← i.linearize c.name)

end SolNorm
