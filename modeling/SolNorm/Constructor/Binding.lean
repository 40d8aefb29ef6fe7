import SolNorm.Index.Linearization

/-!
Arguments for the constructors of bases. A contract can give them where it names the base or in the
header of its own constructor; along the ancestors of a contract each base may get them once.
-/

namespace SolNorm.Construction

open Outline

def parametersOf (c : Contract) : List Variable :=
  (c.constructor?.map Function.parameters).getD []

/-- The arguments that a contract gives to a base. -/
structure Binding where
  base : String
  supplier : Contract
  arguments : List Expr
  /-- Whether they stand in the header of a constructor, where its parameters can be used. -/
  inConstructor : Bool
  deriving DecidableEq, Repr, Inhabited

/-- The arguments for a base among several. -/
def binding? (bindings : List Binding) (base : String) : Option Binding :=
  bindings.find? fun b => b.base == base

/-- The places where a contract can give arguments to bases, and whether they are in the header of
its constructor. -/
def sites (supplier : Contract) : List (Invocation × Bool) :=
  supplier.bases.map (fun b => (b, false)) ++
    ((supplier.constructor?.map Function.modifiers).getD []).map fun m => (m, true)

/-- The arguments that are given at a place, if they are for a contract of the chain. There have to
be as many as the constructor has parameters. -/
def bindingAt (contract : Contract) (chain : List Contract) (supplier : Contract)
    (site : Invocation × Bool) : Except Error (Option Binding) :=
  match site.1.arguments, chain.find? fun c => c.name == lastSegment site.1.name with
  | some arguments, some base =>
    let expected := parametersOf base
    match expected[arguments.length]? with
    | some missing =>
      .error (.missingArgument contract.name base.name
        (missing.name.getD s!"#{arguments.length}"))
    | none =>
      if expected.length < arguments.length then
        .error (.surplusArguments supplier.name base.name expected.length arguments.length)
      else .ok (some ⟨base.name, supplier, arguments, site.2⟩)
  | _, _ => .ok none

/-- Add the arguments that are given at a place to those that are known. -/
def bindAt (contract : Contract) (chain : List Contract) (bindings : List Binding)
    (place : Contract × Invocation × Bool) : Except Error (List Binding) := do
  match ← bindingAt contract chain place.1 place.2 with
  | none => return bindings
  | some binding =>
    if (binding? bindings binding.base).isSome then
      throw (.repeatedArguments contract.name binding.base)
    return bindings ++ [binding]

def bindingsOf (contract : Contract) (chain : List Contract) : Except Error (List Binding) :=
  (chain.flatMap fun supplier => (sites supplier).map fun site => (supplier, site)).foldlM
    (bindAt contract chain) []

end SolNorm.Construction
