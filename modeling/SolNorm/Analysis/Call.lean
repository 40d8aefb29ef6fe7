import SolNorm.Index.Resolution
import SolNorm.Selector.Collision

/-!
Calls of functions that have got new names. A call follows its function; a call whose function is
unclear is left as it is, with a warning.
-/

namespace SolNorm.CallSite

open Outline

/-- The warning for a call whose function is unclear. -/
def issue (i : Index) (c : Contract) (call : Call) (e : ResolveError) : CallIssue :=
  { kind :=
      match e with
      | .ambiguous candidates => .ambiguous candidates
      | .unresolved => .unresolved
    contract := c.name
    function := (i.functionAt? call.span.start).map fun (_, f) => f.name
    callee := call.callee
    position := Position.ofOffset i.text call.calleeSpan.start }

/-- The edit of a call, if its function has got a new name. -/
def edit? (i : Index) (r : Renames) (c : Contract) (call : Call) : Option Edit :=
  match i.resolve c call with
  | .ok (some target) => (r.find? target.key).map fun name => ⟨call.calleeSpan, name⟩
  | _ => none

/-- The warning for a call, if its function is unclear. -/
def issue? (i : Index) (c : Contract) (call : Call) : Option CallIssue :=
  match i.resolve c call with
  | .ok _ => none
  | .error e => some (issue i c call e)

/-- The edits of all calls, in the order of the walk through the source. -/
def edits (i : Index) (r : Renames) : List Edit :=
  i.unit.callSites.filterMap fun (c, call) => edit? i r c call

/-- The warnings for all calls, in the order of the walk through the source. -/
def issues (i : Index) : List CallIssue :=
  i.unit.callSites.filterMap fun (c, call) => issue? i c call

end SolNorm.CallSite
