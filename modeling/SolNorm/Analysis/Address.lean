import SolNorm.Index.Basic

/-!
Functions that handle addresses. A value is an address if its type is `address` or a contract, or
an array of these.
-/

namespace SolNorm

open Outline

/-- Where a function declares a value. -/
inductive DeclarationRole where
  | parameter
  | result
  | local_
  deriving DecidableEq, Repr, Inhabited

def DeclarationRole.word : DeclarationRole → String
  | .parameter => "parameter"
  | .result => "return"
  | .local_ => "local"

/-- A declared value that is an address. -/
structure AddressDeclaration where
  name : Option String
  type : String
  role : DeclarationRole
  /-- Whether it is declared with the type of a contract. -/
  isContract : Bool
  deriving DecidableEq, Repr, Inhabited

/-- A function with the addresses that it declares. -/
structure AddressUsage where
  contract : String
  function : String
  declarations : List AddressDeclaration
  deriving DecidableEq, Repr, Inhabited

namespace AddressUsage

def declaration? (i : Index) (role : DeclarationRole) (v : Variable) :
    Option AddressDeclaration :=
  let isContract := (i.contract? v.type.element).isSome
  if v.type.element == "address" || isContract then some ⟨v.name, v.type.text, role, isContract⟩
  else none

def declared (i : Index) (f : Function) : List AddressDeclaration :=
  f.parameters.filterMap (declaration? i .parameter) ++
    f.returns.filterMap (declaration? i .result) ++
    ((f.body.map Body.locals).getD []).filterMap (declaration? i .local_)

/-- The functions that declare addresses, in the order of the source. -/
def all (i : Index) : List AddressUsage :=
  (i.contracts.flatMap fun c => c.functions.map fun f =>
    (⟨c.name, f.signature, declared i f⟩ : AddressUsage)).filter fun u =>
      !u.declarations.isEmpty

end AddressUsage

end SolNorm
