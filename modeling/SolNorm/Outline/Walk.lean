import SolNorm.Outline.Basic

/-!
Walking an outline. Entries are met in the order of the file, a contract or a function before what
is in it; what is in an entry is skipped when the walker asks for that.
-/

namespace SolNorm.Outline

/-- An entry that a walk meets. -/
inductive Node where
  | imports (directive : Import)
  | contract (contract : Contract)
  | function (function : Function)
  | variable (declaration : Variable)
  | modifier (invocation : Invocation)
  | call (call : Call)
  | ident (ident : Ident)
  deriving Repr, Inhabited

/-- Where an entry stands. A contract or a function stands in what is around it, and its parts stand
in it. -/
structure Scope where
  contract : Option Contract
  function : Option Function
  deriving Repr, Inhabited

def Scope.outside : Scope := ⟨none, none⟩

/-- An entry with the place where it stands. -/
abbrev Visit := Node × Scope

def visitCalls (scope : Scope) (calls : List Call) : List Visit :=
  calls.map fun c => (.call c, scope)

/-- A visit, and those that follow it unless they are to be skipped. -/
def visitWith (descend : Visit → Bool) (visit : Visit) (inner : List Visit) : List Visit :=
  visit :: if descend visit then inner else []

def visitFunction (descend : Visit → Bool) (c : Contract) (f : Function) : List Visit :=
  let scope : Scope := ⟨some c, some f⟩
  let declared (list : List Variable) : List Visit := list.map fun v => (.variable v, scope)
  let modifiers := f.modifiers.flatMap fun m =>
    visitWith descend (.modifier m, scope) (visitCalls scope m.calls)
  let body : List Visit :=
    match f.body with
    | some b =>
      declared b.locals ++ visitCalls scope b.calls ++ b.idents.map fun i => (.ident i, scope)
    | none => []
  visitWith descend (.function f, ⟨some c, none⟩)
    (declared (f.parameters ++ f.returns) ++ modifiers ++ body)

def visitContract (descend : Visit → Bool) (c : Contract) : List Visit :=
  let scope : Scope := ⟨some c, none⟩
  let bases := c.bases.flatMap fun b =>
    visitWith descend (.modifier b, scope) (visitCalls scope b.calls)
  let declared := c.stateVariables.flatMap fun v =>
    visitWith descend (.variable v, scope) (visitCalls scope v.calls)
  visitWith descend (.contract c, .outside)
    (bases ++ declared ++ c.functions.flatMap (visitFunction descend c))

/-- The visits to everything in a source unit, without what is in entries that are not descended
into. -/
def walk (descend : Visit → Bool) (u : Outline) : List Visit :=
  u.items.flatMap fun
    | .imports i => [(.imports i, .outside)]
    | .contract c => visitContract descend c
    | .pragma _ | .other .. => []

def callSite? : Visit → Option (Contract × Call)
  | (.call call, ⟨some contract, _⟩) => some (contract, call)
  | _ => none

def callSites (u : Outline) : List (Contract × Call) :=
  (u.walk fun _ => true).filterMap callSite?

end SolNorm.Outline
