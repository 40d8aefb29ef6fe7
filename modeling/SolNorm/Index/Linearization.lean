import SolNorm.Index.Basic

/-!
The order of a contract's ancestors. It is found by merging: the orders of the bases and the list of
the bases themselves are taken together, and the next ancestor is always the first one that heads a
list and is in no list behind the head. Bases are written from the most basic to the most derived,
while the merge goes the other way.
-/

namespace SolNorm.Index

open Outline

/-- The first head of the lists that no list holds behind its head. -/
def nextHead? (lists : List (List String)) : Option String :=
  (lists.filterMap List.head?).find? fun candidate =>
    !lists.any fun list => list.tail.contains candidate

def dropHead (name : String) (lists : List (List String)) : List (List String) :=
  lists.map fun list => if list.head? == some name then list.tail else list

/-- Merge lists into one that keeps the order of each. The number bounds the length of the result;
the sum of the lengths is enough. -/
def merge? : Nat → List (List String) → Option (List String)
  | 0, lists => if lists.all List.isEmpty then some [] else none
  | n + 1, lists =>
    if lists.all List.isEmpty then some []
    else do
      let head ← nextHead? lists
      let rest ← merge? n (dropHead head lists)
      return head :: rest

/-- The ancestors of a contract, itself first. `active` holds the contracts whose ancestors are
looked for, the innermost first; the number bounds how many more there can be. -/
def ancestors (i : Index) : Nat → List String → String → Except Error (List String)
  | 0, active, name => .error (.inheritanceCycle (active.headD name))
  | n + 1, active, name => do
    match i.contract? name with
    | none => throw (.undefinedBase (active.headD name) name)
    | some c =>
      if active.contains c.name then throw (.inheritanceCycle c.name)
      let bases := c.bases.reverse.map Invocation.name
      let lists ← bases.mapM (i.ancestors n (c.name :: active))
      let all := lists ++ [bases.map lastSegment]
      match merge? all.flatten.length all with
      | some order => return c.name :: order
      | none => throw (.noLinearization c.name)

/-- The contract that a name stands for and its ancestors, from the most basic one to the contract
itself. -/
def linearize (i : Index) (name : String) : Except Error (List Contract) := do
  let order ← i.ancestors (i.contracts.length + 1) [] name
  order.reverse.mapM i.contract

end SolNorm.Index
