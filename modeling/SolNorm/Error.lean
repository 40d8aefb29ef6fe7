import SolNorm.Text.Position
import SolNorm.Text.Span

/-!
What can go wrong, and how it is told. An error names its cause; the wording of every cause is
given once, in `Error.message`.
-/

namespace SolNorm

/-- A place where a text stops being a source unit. -/
structure ParseError where
  position : Position
  message : String
  deriving DecidableEq, Repr, Inhabited

namespace ParseError

def atOffset (text : String) (offset : Nat) (message : String) : ParseError :=
  ⟨Position.ofOffset text offset, message⟩

def render (e : ParseError) : String := s!"{e.position.render}: {e.message}"

end ParseError

/-- The causes for which a source cannot be prepared. -/
inductive Error where
  /-- A file is not a source unit. -/
  | parse (file : String) (cause : ParseError)
  /-- The edits of a pass left a text that is no source unit. -/
  | regression (pass : String) (cause : ParseError)
  /-- Files import each other in a circle; the chain starts and ends with the same file. -/
  | cyclicImport (chain : List String)
  /-- No file answers to an import. -/
  | fileNotFound (path importer : String)
  /-- A contract leaves a constructor parameter of a base unbound. -/
  | missingArgument (contract base parameter : String)
  /-- An edit touches bytes that an earlier edit of its batch touches. -/
  | overlap (existing attempted : Span)
  /-- The bases of a contract cannot be used as they are written. -/
  | inheritance (contract message : String)
  /-- No contract has the name. -/
  | unknownContract (name : String)
  /-- The index belongs to another version of the source. -/
  | staleIndex (version : Nat)
  /-- A rule that the library keeps by itself was broken. -/
  | invariant (message : String)
  /-- The backend refused the source. -/
  | backend (message : String)
  /-- A file could not be read or written. -/
  | io (message : String)
  /-- A settings file is not of the expected form. -/
  | json (message : String)
  /-- The error arose while a pass was running. -/
  | inPass (pass : String) (cause : Error)
  deriving DecidableEq, Repr, Inhabited

namespace Error

def undefinedBase (contract base : String) : Error :=
  .inheritance contract s!"base contract '{base}' is not defined"

def inheritanceCycle (contract : String) : Error :=
  .inheritance contract "inheritance cycle"

/-- The ancestors of a contract have no common order. -/
def noLinearization (contract : String) : Error :=
  .inheritance contract "linearization of inheritance graph impossible"

/-- A base constructor is given more arguments than it has parameters. -/
def surplusArguments (contract base : String) (expected given : Nat) : Error :=
  .inheritance contract
    s!"base '{base}' takes {expected} constructor arguments, {given} given"

/-- Two places bind the constructor of one base. -/
def repeatedArguments (contract base : String) : Error :=
  .inheritance contract s!"arguments for base '{base}' given more than once"

def noNewName (function : String) : Error :=
  .invariant s!"no new name is left for function '{function}'"

def reversedEdit (span : Span) : Error :=
  .invariant s!"edit range {span.render} is reversed"

/-- An edit cannot be cut out of the text to which it is applied. -/
def misfitEdit (span : Span) (version size : Nat) : Error :=
  .invariant s!"edit {span.render} does not fit source version {version} ({size} bytes)"

def message : Error → String
  | .parse file cause => s!"Parse error in {file} at {cause.render}"
  | .regression pass cause =>
    s!"Pass '{pass}' produced source that no longer parses ({cause.render})"
  | .cyclicImport chain => "Cyclic import: " ++ " -> ".intercalate chain
  | .fileNotFound path importer => s!"Could not resolve import '{path}' from '{importer}'"
  | .missingArgument contract base parameter =>
    s!"Contract '{contract}' does not bind parameter '{parameter}' of base constructor '{base}'"
  | .overlap existing attempted =>
    s!"Edit {attempted.render} overlaps already staged edit {existing.render}"
  | .inheritance contract text => s!"Inheritance error in '{contract}': {text}"
  | .unknownContract name => s!"Contract '{name}' not found in source"
  | .staleIndex version =>
    s!"AST index queried while out of sync with source version {version}"
  | .invariant text => s!"Internal invariant violated: {text}"
  | .backend text => s!"Backend error: {text}"
  | .io text => s!"I/O error: {text}"
  | .json text => s!"JSON error: {text}"
  | .inPass pass cause => s!"{pass}: {cause.message}"

/-- Attach the name of the pass that was running. An error that already carries its pass is left
alone. -/
def within (pass : String) : Error → Error
  | .inPass inner cause => .inPass inner cause
  | .regression inner cause => .regression inner cause
  | other => .inPass pass other

/-- The cause without the names of passes around it. -/
def root : Error → Error
  | .inPass _ cause => cause.root
  | other => other

/-- Whether the error shows a fault of the library and not of its input. -/
def isInternal (e : Error) : Bool :=
  match e.root with
  | .regression .. | .overlap .. | .staleIndex _ | .invariant _ => true
  | _ => false

/-- The exit status with which a program ends on the error. -/
def exitCode (e : Error) : Nat := if e.isInternal then 2 else 1

/-- The messages of an error and of everything it wraps, outermost first. -/
def chain : Error → List String
  | .inPass pass cause => (Error.inPass pass cause).message :: cause.chain
  | other => [other.message]

end Error

/-- Why a call has no single target. -/
inductive CallIssueKind where
  | ambiguous (candidates : List String)
  | unresolved
  deriving DecidableEq, Repr, Inhabited

/-- A call that was left alone because its target is unclear. It does not stop a run. -/
structure CallIssue where
  kind : CallIssueKind
  contract : String
  function : Option String
  callee : String
  position : Position
  deriving DecidableEq, Repr, Inhabited

namespace CallIssue

/-- The contract in which the call stands, with the function if it stands in one. -/
def scope (i : CallIssue) : String :=
  match i.function with
  | some function => s!"{i.contract}.{function}"
  | none => i.contract

def message (i : CallIssue) : String :=
  let call := s!"{i.position.render}: call to '{i.callee}' in {i.scope}"
  match i.kind with
  | .ambiguous candidates => s!"{call} is ambiguous between " ++ ", ".intercalate candidates
  | .unresolved => s!"{call} could not be resolved"

end CallIssue

end SolNorm
