import SolNorm.Text.Span

/-!
The outline of a source unit: its contracts with their bases, variables and functions, and of every
body the calls, the mentioned names and the declared variables. Each entry keeps the bytes it was
taken from, which are meaningful for that text only.
-/

namespace SolNorm.Outline

/-- A mentioned name. -/
structure Ident where
  name : String
  span : Span
  deriving DecidableEq, Repr, Inhabited

/-- What is known of the value of an expression from its form alone. -/
inductive ExprKind where
  | number
  | text
  | truth
  | name (name : String)
  | other
  deriving DecidableEq, Repr, Inhabited

/-- An expression, kept as a region of the source with the names that it mentions. Names of members
are not among them. -/
structure Expr where
  kind : ExprKind
  span : Span
  idents : List Ident
  deriving DecidableEq, Repr, Inhabited

/-- What stands before the dot of a call to a member. -/
inductive Receiver where
  /-- There is no dot. -/
  | none
  | this
  | super
  /-- A name. -/
  | named (name : String)
  /-- A conversion `X(e)` to a contract. -/
  | cast (name : String)
  /-- Anything else. -/
  | other
  deriving DecidableEq, Repr, Inhabited

/-- A call, from the name of what is called to the closing parenthesis. -/
structure Call where
  callee : String
  calleeSpan : Span
  receiver : Receiver
  arguments : List Expr
  span : Span
  deriving DecidableEq, Repr, Inhabited

/-- A type in its normal spelling, in which `uint` is `uint256`, and the bytes it was written on. -/
structure TypeRef where
  text : String
  span : Span
  deriving DecidableEq, Repr, Inhabited

/-- Who may use a definition. -/
inductive Visibility where
  | publicly
  | externally
  | internally
  | privately
  deriving DecidableEq, Repr, Inhabited

def Visibility.ofWord? : String → Option Visibility
  | "public" => some .publicly
  | "external" => some .externally
  | "internal" => some .internally
  | "private" => some .privately
  | _ => none

def Visibility.word : Visibility → String
  | .publicly => "public"
  | .externally => "external"
  | .internally => "internal"
  | .privately => "private"

/-- A declared value. The calls are those of the initial value of a contract's variable; locals
leave theirs to the body. -/
structure Variable where
  name : Option String
  nameSpan : Option Span
  type : TypeRef
  location : Option String
  visibility : Option Visibility
  isConstant : Bool
  isImmutable : Bool
  calls : List Call
  span : Span
  deriving DecidableEq, Repr, Inhabited

/-- A base of a contract or a modifier of a function, with the arguments that it is given. -/
structure Invocation where
  name : String
  nameSpan : Span
  arguments : Option (List Expr)
  /-- The arguments with their parentheses. -/
  argsSpan : Option Span
  /-- The calls made by the arguments. -/
  calls : List Call
  span : Span
  deriving DecidableEq, Repr, Inhabited

/-- A body with what was found in it. -/
structure Body where
  span : Span
  locals : List Variable
  calls : List Call
  idents : List Ident
  deriving DecidableEq, Repr, Inhabited

/-- The sorts of functions. -/
inductive FunctionKind where
  | constructor
  | function
  | fallback
  | receive
  | modifier
  deriving DecidableEq, Repr, Inhabited

/-- A word or an override in the header of a function. -/
structure Attribute where
  text : String
  span : Span
  deriving DecidableEq, Repr, Inhabited

/-- A function, or anything else with a header and a body. A function without a visibility can be
called by anyone. -/
structure Function where
  kind : FunctionKind
  name : String
  nameSpan : Option Span
  parameters : List Variable
  /-- The parameters with their parentheses. -/
  paramsSpan : Span
  returns : List Variable
  visibility : Option Visibility
  mutability : Option String
  attributes : List Attribute
  modifiers : List Invocation
  body : Option Body
  span : Span
  deriving DecidableEq, Repr, Inhabited

/-- The sorts of contracts. -/
inductive ContractKind where
  | contract
  | interface
  | library
  deriving DecidableEq, Repr, Inhabited

def ContractKind.word : ContractKind → String
  | .contract => "contract"
  | .interface => "interface"
  | .library => "library"

/-- A contract, an interface or a library. -/
structure Contract where
  name : String
  nameSpan : Span
  kind : ContractKind
  isAbstract : Bool
  bases : List Invocation
  stateVariables : List Variable
  functions : List Function
  /-- The structs, enumerations, events, errors and types that it declares. -/
  typeNames : List String
  /-- The body with its braces. -/
  bodySpan : Span
  span : Span
  deriving DecidableEq, Repr, Inhabited

/-- An import of another file. -/
structure Import where
  path : String
  pathSpan : Span
  unitAlias : Option String
  symbols : List (String × Option String)
  span : Span
  deriving DecidableEq, Repr, Inhabited

/-- An entry of a source unit. -/
inductive Item where
  | pragma (span : Span)
  | imports (directive : Import)
  | contract (contract : Contract)
  /-- Anything else, with its first word and the name it declares. -/
  | other (keyword : String) (name : Option String) (span : Span)
  deriving DecidableEq, Repr, Inhabited

end Outline

/-- A parsed source file. -/
structure Outline where
  items : List Outline.Item
  span : Span
  deriving DecidableEq, Repr, Inhabited

namespace Outline

def contracts (u : Outline) : List Contract :=
  u.items.filterMap fun
    | .contract c => some c
    | _ => none

def imports (u : Outline) : List Import :=
  u.items.filterMap fun
    | .imports i => some i
    | _ => none

def contract? (u : Outline) (name : String) : Option Contract :=
  u.contracts.find? fun c => c.name == name

/-- The names that are declared outside contracts. -/
def freeNames (u : Outline) : List String :=
  u.items.filterMap fun
    | .other _ name _ => name
    | _ => none

namespace Contract

def constructor? (c : Contract) : Option Function :=
  c.functions.find? fun f => f.kind == .constructor

def functionsNamed (c : Contract) (name : String) : List Function :=
  c.functions.filter fun f => f.kind == .function && f.name == name

def variableNamed? (c : Contract) (name : String) : Option Variable :=
  c.stateVariables.find? fun v => v.name == some name

/-- Whether the contract can be deployed. -/
def isConcrete (c : Contract) : Bool := c.kind == .contract && !c.isAbstract

end Contract

namespace Function

def parameterTypes (f : Function) : List String := f.parameters.map fun p => p.type.text

/-- The name followed by the types of the parameters. -/
def signature (f : Function) : String :=
  f.name ++ "(" ++ ",".intercalate f.parameterTypes ++ ")"

/-- The first parameter, result or local with a name. -/
def declaration? (f : Function) (name : String) : Option Variable :=
  (f.parameters ++ f.returns ++ (f.body.map Body.locals).getD []).find? fun v =>
    v.name == some name

end Function

/-- Cut a text before the last occurrence of a character, if there is one. -/
def dropFromLast? (c : Char) (cs : List Char) : Option (List Char) :=
  match cs.reverse.dropWhile (· != c) with
  | [] => none
  | _ :: rest => some rest.reverse

theorem length_lt_of_dropFromLast? {c : Char} {cs rest : List Char}
    (h : dropFromLast? c cs = some rest) : rest.length < cs.length := by
  unfold dropFromLast? at h
  split at h
  · cases h
  · rename_i d tail hDrop
    cases h
    have hLength : (cs.reverse.dropWhile (· != c)).length ≤ cs.reverse.length :=
      (List.dropWhile_suffix _).length_le
    simp [hDrop] at hLength ⊢
    omega

/-- Take away the bracketed suffixes at the end of a spelled type. -/
def elementChars (cs : List Char) : List Char :=
  if cs.getLast? == some ']' then
    match h : dropFromLast? '[' cs with
    | some rest =>
      have := length_lt_of_dropFromLast? h
      elementChars rest
    | none => cs
  else cs
termination_by cs.length

/-- The innermost element type of a spelled type. -/
def elementType (text : String) : String := String.ofList (elementChars text.toList)

namespace TypeRef

/-- The innermost element type. -/
def element (t : TypeRef) : String := elementType t.text

def isArray (t : TypeRef) : Bool := t.text.toList.getLast? == some ']'

def isMapping (t : TypeRef) : Bool := "mapping(".toList.isPrefixOf t.text.toList

end TypeRef

namespace Expr

/-- The text of an expression in which the names that `substitute` maps are replaced. A replacement
is not looked at again. -/
def render (e : Expr) (text : String) (substitute : String → Option String) : String :=
  let step := fun (done : String × Nat) (i : Ident) =>
    match substitute i.name with
    | some replacement =>
      (done.1 ++ Span.slice ⟨done.2, i.span.start⟩ text ++ replacement, i.span.stop)
    | none => done
  let (front, cursor) := e.idents.foldl step ("", e.span.start)
  front ++ Span.slice ⟨cursor, e.span.stop⟩ text

/-- Whether the expression can stand in the place of a name without parentheses. -/
def isAtomic (e : Expr) : Bool := e.kind != .other

end Expr

end Outline

end SolNorm
