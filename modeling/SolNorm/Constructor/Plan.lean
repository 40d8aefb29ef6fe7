import SolNorm.Constructor.Binding

/-!
The plan for one constructor that does the work of a whole chain. The constructors of the bases
become functions, which the merged constructor calls from the most basic contract to the most
derived. Parameters of bases that nobody gives arguments for become parameters of the merged
constructor.
-/

namespace SolNorm.Construction

open Outline

/-- What is planned for a contract. -/
structure Report where
  contract : String
  /-- The ancestors, from the most basic one to the contract itself. -/
  chain : List String
  /-- Whether some base constructor has parameters, so that constructors have to be merged. -/
  isNeeded : Bool
  /-- The parameters of the merged constructor. -/
  parameters : List String
  /-- The calls that it makes, in their order. -/
  initializers : List String
  /-- Whether the source is changed for the contract. -/
  isApplied : Bool
  deriving DecidableEq, Repr, Inhabited

/-- The name of the function that a base constructor becomes. -/
def initializerName (base : String) : String := "__constructor_" ++ base

/-- A name followed by as many underscores as it takes to be free. The number bounds them. -/
def freeName (taken : List String) : Nat → String → String
  | 0, name => name
  | n + 1, name => if taken.contains name then freeName taken n (name ++ "_") else name

/-- The name under which a parameter of a base is exposed. `count` is the number of parameters that
are exposed already. -/
def exposedName (taken : List String) (base : String) (count : Nat) (name : Option String) :
    String :=
  let wanted :=
    match name with
    | some n => if taken.contains n then s!"{n}_{base}" else n
    | none => s!"arg{count}"
  freeName taken taken.length wanted

/-- A parameter of the merged constructor that stands for a parameter of a base. -/
structure Exposed where
  base : String
  name : String
  declaration : String
  deriving DecidableEq, Repr, Inhabited

/-- The declaration of a parameter under another name. -/
def declarationText (text : String) (v : Variable) (name : String) : String :=
  let location := (v.location.map fun l => " " ++ l).getD ""
  v.type.span.slice text ++ location ++ " " ++ name

/-- Expose one more parameter of a base. -/
def expose (text : String) (own : List String) (exposed : List Exposed)
    (parameter : String × Variable) : List Exposed :=
  let (base, v) := parameter
  let name := exposedName (exposed.map Exposed.name ++ own) base exposed.length v.name
  exposed ++ [⟨base, name, declarationText text v name⟩]

/-- The parameters of bases that become parameters of the merged constructor of a contract: those of
the bases that are to be initialized and that nobody gives arguments for. -/
def exposedParameters (text : String) (contract : Contract) (bases : List Contract)
    (bindings : List Binding) (isInitialized : Contract → Bool) : List Exposed :=
  let own := (parametersOf contract).filterMap Variable.name
  let open_ := bases.filter fun b => isInitialized b && (binding? bindings b.name).isNone
  (open_.flatMap fun b => (parametersOf b).map fun v => (b.name, v)).foldl (expose text own) []

/-- Put parentheses around an expression, unless it is a single word or a single string. -/
def parenthesize (value : String) : String :=
  let isQuote (c : Char) : Bool := c == '"' || c == '\''
  let isWord := value.toList.all fun c => c.isAlphanum || c == '_' || c == '$'
  let isString :=
    match value.toList with
    | c :: rest => isQuote c && !rest.isEmpty && !rest.dropLast.any isQuote
    | [] => false
  if isWord || isString then value else s!"({value})"

/-- The values of the parameters of a constructor, by name. -/
abbrev Environment := List (String × String)

/-- The value of a name. Of several parameters with one name the last counts. -/
def Environment.value? (e : Environment) (name : String) : Option String := e.reverse.lookup name

def environmentOf (parameters : List Variable) (values : List String) : Environment :=
  (parameters.zip values).filterMap fun (v, value) =>
    v.name.map fun name => (name, parenthesize value)

/-- What the constructor of a contract of the chain is given. -/
structure Supply where
  contract : String
  values : List String
  environment : Environment
  deriving DecidableEq, Repr, Inhabited

/-- The arguments for the constructor of a contract of the chain, from what the contracts derived
from it are given. -/
def argumentsFor (text : String) (contract : Contract) (bindings : List Binding)
    (exposed : List Exposed) (supplies : List Supply) (current : Contract) : List String :=
  if current.name == contract.name then []
  else
    match binding? bindings current.name with
    | some binding =>
      let supply := supplies.find? fun s => s.contract == binding.supplier.name
      let environment :=
        if binding.inConstructor then (supply.map Supply.environment).getD [] else []
      binding.arguments.map fun e => e.render text environment.value?
    | none => (exposed.filter fun x => x.base == current.name).map Exposed.name

/-- Add what one more contract of the chain is given. -/
def addSupply (text : String) (contract : Contract) (bindings : List Binding)
    (exposed : List Exposed) (supplies : List Supply) (current : Contract) : List Supply :=
  let values := argumentsFor text contract bindings exposed supplies current
  supplies ++ [⟨current.name, values, environmentOf (parametersOf current) values⟩]

/-- What the constructors along the chain are given. The chain is gone through from the contract to
its most basic ancestor, because arguments can be made of the parameters of derived contracts. -/
def suppliesOf (text : String) (contract : Contract) (chain : List Contract)
    (bindings : List Binding) (exposed : List Exposed) : List Supply :=
  chain.reverse.foldl (addSupply text contract bindings exposed) []

def initializerCall (supplies : List Supply) (base : Contract) : String :=
  let values := ((supplies.find? fun s => s.contract == base.name).map Supply.values).getD []
  initializerName base.name ++ "(" ++ ", ".intercalate values ++ ")"

/-- A plan with the contracts that it is about. -/
structure Plan where
  contract : Contract
  chain : List Contract
  report : Report
  deriving DecidableEq, Repr, Inhabited

/-- Plan the merged constructor of a contract. Only bases that are to be initialized are called and
have their parameters exposed. -/
def plan (i : Index) (contract : Contract) (isInitialized : Contract → Bool) :
    Except Error Plan := do
  let chain ← i.linearize contract.name
  let bases := chain.dropLast
  let bindings ← bindingsOf contract chain
  let exposed := exposedParameters i.text contract bases bindings isInitialized
  let supplies := suppliesOf i.text contract chain bindings exposed
  let called := bases.filter fun b => b.constructor?.isSome && isInitialized b
  let report : Report :=
    { contract := contract.name
      chain := chain.map Contract.name
      isNeeded := bases.any fun b => !(parametersOf b).isEmpty
      parameters := exposed.map Exposed.declaration ++
        (parametersOf contract).map fun v => v.span.slice i.text
      initializers := called.map (initializerCall supplies)
      isApplied := false }
  return ⟨contract, chain, report⟩

end SolNorm.Construction
