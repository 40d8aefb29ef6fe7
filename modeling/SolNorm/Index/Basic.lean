import SolNorm.Error
import SolNorm.Outline.Walk
import SolNorm.Text.Edit

/-!
Questions about one version of a source. An index holds the outline of a text together with the
text and its version; it is of no use for any other version.
-/

namespace SolNorm

/-- The outline of one version of a source. -/
structure Index where
  unit : Outline
  text : String
  version : Nat
  deriving Repr, Inhabited

/-- The part of a dotted name after its last dot. -/
def lastSegment (name : String) : String :=
  String.ofList (name.toList.reverse.takeWhile (· != '.')).reverse

namespace Index

open Outline

def ofSource (source : Source) (unit : Outline) : Index := ⟨unit, source.text, source.version⟩

def contracts (i : Index) : List Contract := i.unit.contracts

/-- The contract that a name stands for: the first with the last part of the name. -/
def contract? (i : Index) (name : String) : Option Contract :=
  i.unit.contract? (lastSegment name)

def contract (i : Index) (name : String) : Except Error Contract :=
  match i.contract? name with
  | some c => .ok c
  | none => .error (.unknownContract name)

/-- The first of the shortest entries of a list. -/
def shortest {α : Type} (length : α → Nat) : List α → Option α
  | [] => none
  | a :: rest =>
    match shortest length rest with
    | some b => if length b < length a then some b else some a
    | none => some a

/-- The innermost function around an offset, with its contract. -/
def functionAt? (i : Index) (offset : Nat) : Option (Contract × Function) :=
  let around := (i.contracts.filter fun c => c.span.contains offset).flatMap fun c =>
    (c.functions.filter fun f => f.span.contains offset).map fun f => (c, f)
  shortest (fun (_, f) => f.span.length) around

/-- Whether a name is declared as something that is not a function of a contract. -/
def isOtherName (i : Index) (name : String) : Bool :=
  (i.contract? name).isSome || i.unit.freeNames.contains name ||
    i.contracts.any fun c => c.typeNames.contains name

end Index

end SolNorm
