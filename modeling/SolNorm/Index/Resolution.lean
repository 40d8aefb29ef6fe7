import SolNorm.Index.Signature
import SolNorm.Text.Number

/-!
Finding the function that a call refers to. The receiver of a call decides which contracts are
searched; of the functions that can be seen there, those fit that take as many arguments as are
given and to whose parameters the arguments convert. An exact fit is preferred to one by conversion.
-/

namespace SolNorm

open Outline

/-- Why a call has no target although it calls a function of a contract. -/
inductive ResolveError where
  | ambiguous (candidates : List String)
  | unresolved
  deriving DecidableEq, Repr, Inhabited

def ResolveError.message : ResolveError → String
  | .ambiguous candidates => "ambiguous call, candidates: " ++ ", ".intercalate candidates
  | .unresolved => "no matching definition"

/-- What is known of the type of an argument. -/
inductive ArgumentType where
  | number
  | text
  | truth
  | typed (name : String)
  | unknown
  deriving DecidableEq, Repr, Inhabited

/-- How well an argument fits a parameter. -/
inductive Fit where
  | none
  | implicit
  | exact
  deriving DecidableEq, Repr, Inhabited

namespace Fit

/-- The position of a fit in the order from bad to good. -/
def rank : Fit → Nat
  | .none => 0
  | .implicit => 1
  | .exact => 2

/-- The worse of two fits. -/
def min (a b : Fit) : Fit := if a.rank ≤ b.rank then a else b

end Fit

def after? (start text : String) : Option (List Char) :=
  if start.toList.isPrefixOf text.toList then some (text.toList.drop start.length) else none

/-- The number of bytes of a type of fixed length, from one to 32. -/
def fixedBytesWidth? (type : String) : Option Nat := do
  let width ← Text.word32? (← after? "bytes" type)
  if 1 ≤ width ∧ width ≤ 32 then some width else none

/-- Whether an integer type has a sign, and its number of bits. -/
def integerWidth? (type : String) : Option (Bool × Nat) :=
  match after? "uint" type, after? "int" type with
  | some digits, _ => (Text.word32? digits).map fun bits => (false, bits)
  | none, some digits => (Text.word32? digits).map fun bits => (true, bits)
  | none, none => none

namespace Index

/-- The functions of the language that no contract defines. -/
def isBuiltin (name : String) : Bool :=
  ["require", "assert", "revert", "keccak256", "sha256", "sha3", "ripemd160", "ecrecover",
    "addmod", "mulmod", "blockhash", "blobhash", "gasleft", "selfdestruct", "suicide"].contains
    name

/-- The variable of a name that a contract sees, with the contract that declares it: the most
derived declaration counts. -/
def stateVariable? (i : Index) (c : Contract) (name : String) : Option (Contract × Variable) :=
  match i.linearize c.name with
  | .ok chain => chain.reverse.findSome? fun owner =>
    (owner.variableNamed? name).map fun v => (owner, v)
  | .error _ => none

def variableType? (i : Index) (c : Contract) (f : Option Function) (name : String) :
    Option TypeRef :=
  match f.bind fun f => f.declaration? name with
  | some local_ => some local_.type
  | none => (i.stateVariable? c name).map fun (_, v) => v.type

/-- What is known of the type of an argument of a call. -/
def argumentType (i : Index) (c : Contract) (f : Option Function) (e : Expr) : ArgumentType :=
  match e.kind with
  | .number => .number
  | .text => .text
  | .truth => .truth
  | .name name =>
    match i.variableType? c f name with
    | some type => .typed type.text
    | none => .unknown
  | .other => .unknown

/-- Whether a contract is another one or inherits it. -/
def inherits (i : Index) (name base : String) : Bool :=
  match i.linearize name with
  | .ok chain => chain.any fun c => c.name == base
  | .error _ => false

/-- How well a value of a named type fits a parameter. Integers widen without changing their sign,
and a contract converts to its bases and to an address. -/
def conversionOfTyped (i : Index) (actual parameter : String) : Fit :=
  if actual == parameter then .exact
  else
    match integerWidth? actual, integerWidth? parameter with
    | some (signed, bits), some (signed', bits') =>
      if signed == signed' && bits ≤ bits' then .implicit else .none
    | _, _ =>
      if (i.contract? actual).isSome && (parameter == "address" || i.inherits actual parameter)
      then .implicit
      else .none

/-- How well an argument fits a parameter. -/
def conversion (i : Index) (argument : ArgumentType) (parameter : String) : Fit :=
  match argument with
  | .unknown => .implicit
  | .truth => if parameter == "bool" then .exact else .none
  | .number =>
    if (integerWidth? parameter).isSome || (fixedBytesWidth? parameter).isSome then .implicit
    else .none
  | .text =>
    if parameter == "string" then .exact
    else if "bytes".toList.isPrefixOf parameter.toList && !parameter.toList.contains '[' then
      .implicit
    else .none
  | .typed actual => i.conversionOfTyped actual parameter

/-- How well the arguments of a call fit the parameters of a function with as many. -/
def quality (i : Index) (c : Contract) (f : Option Function) (arguments : List Expr)
    (candidate : FunctionRef) : Fit :=
  (candidate.function.parameters.zip arguments).foldl
    (fun worst (parameter, argument) =>
      worst.min (i.conversion (i.argumentType c f argument) parameter.type.text)) .exact

/-- The contracts that are searched from a contract on. -/
def searchFrom (i : Index) (name : String) : Except ResolveError (Option (List Contract)) :=
  match i.linearize name with
  | .ok chain => .ok (some chain)
  | .error _ => .error .unresolved

/-- Whether a name that stands alone means something else than a function of a contract. -/
def hides (i : Index) (c : Contract) (f : Option Function) (name : String) : Bool :=
  isBuiltin name || i.isOtherName name || (i.variableType? c f name).isSome

/-- The contracts in which a call looks for its function. There are none if the call does not refer
to a function of a contract. -/
def scopeOf (i : Index) (c : Contract) (f : Option Function) (call : Call) :
    Except ResolveError (Option (List Contract)) :=
  match call.receiver with
  | .none => if i.hides c f call.callee then .ok none else i.searchFrom c.name
  | .this => i.searchFrom c.name
  | .super => (i.searchFrom c.name).map fun list => list.map List.dropLast
  | .named target =>
    if (i.contract? target).isSome then i.searchFrom target
    else
      match i.variableType? c f target with
      | some type => if (i.contract? type.text).isSome then i.searchFrom type.text else .ok none
      | none => .ok none
  | .cast target => if (i.contract? target).isSome then i.searchFrom target else .ok none
  | .other => .ok none

def hasNamedArguments (i : Index) (call : Call) : Bool :=
  match call.arguments with
  | [argument] => (argument.span.slice i.text).toList.head? == some '{'
  | _ => false

/-- The candidates that fit a call best: those that fit exactly, or else those that fit by
conversion. Arguments given by name fit any candidate by conversion. -/
def bestCandidates (i : Index) (c : Contract) (f : Option Function) (call : Call)
    (candidates : List FunctionRef) : List FunctionRef :=
  if i.hasNamedArguments call then candidates
  else
    let fitting (fit : Fit) : List FunctionRef := candidates.filter fun r =>
      r.function.parameters.length == call.arguments.length &&
        i.quality c f call.arguments r == fit
    if (fitting .exact).isEmpty then fitting .implicit else fitting .exact

/-- The function in which a call is made. -/
def enclosing? (i : Index) (call : Call) : Option Function :=
  (i.functionAt? call.span.start).map Prod.snd

/-- The function that a call in a contract refers to. There is none if the call does not refer to a
function of a contract, which is not a failure. -/
def resolve (i : Index) (c : Contract) (call : Call) :
    Except ResolveError (Option FunctionRef) := do
  let f := i.enclosing? call
  match ← i.scopeOf c f call with
  | none => return none
  | some chain =>
    match i.bestCandidates c f call (visibleOverloads chain call.callee) with
    | [] => throw .unresolved
    | [target] => return some target
    | many => throw (.ambiguous (many.map fun r => r.key.render))

end Index

end SolNorm
