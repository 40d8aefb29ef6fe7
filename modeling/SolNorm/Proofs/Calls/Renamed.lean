import SolNorm.Analysis.Call
import SolNorm.Proofs.Selector.RenameTable

/-!
A source after its functions have got their new names. The definitions carry the new names, the calls
that could be followed call them by these names, and nothing else is changed; so every question to
the index that does not ask for the name of a function has the answer that it had before.
-/

namespace SolNorm

open Outline

/-- A call after it has followed its function. -/
def CallSite.follow (i : Index) (r : Renames) (c : Contract) (call : Call) : Call :=
  match edit? i r c call with
  | some edit => { call with callee := edit.replacement }
  | none => call

namespace Index

variable (i : Index) (r : Renames)

/-- A base or a modifier whose calls have been followed. -/
def renamedInvocation (c : Contract) (m : Invocation) : Invocation :=
  { m with calls := m.calls.map (CallSite.follow i r c) }

/-- A variable whose calls have been followed. -/
def renamedVariable (c : Contract) (v : Variable) : Variable :=
  { v with calls := v.calls.map (CallSite.follow i r c) }

/-- A function of a contract with its new name. -/
def renamedFunction (c : Contract) (f : Function) : Function :=
  { f with
    name := if f.kind = .function then r.nameOf ⟨c, f⟩ else f.name
    modifiers := f.modifiers.map (i.renamedInvocation r c)
    body := f.body.map fun b => { b with calls := b.calls.map (CallSite.follow i r c) } }

/-- A contract with the new names of its functions. -/
def renamedContract (c : Contract) : Contract :=
  { c with
    bases := c.bases.map (i.renamedInvocation r c)
    stateVariables := c.stateVariables.map (i.renamedVariable r c)
    functions := c.functions.map (i.renamedFunction r c) }

/-- The definition that stands in the place of another. -/
def renamedRef (d : FunctionRef) : FunctionRef :=
  ⟨i.renamedContract r d.contract, i.renamedFunction r d.contract d.function⟩

/-- An entry of the source with the new names. -/
def renamedItem : Item → Item
  | .contract c => .contract (i.renamedContract r c)
  | item => item

/-- The source with the new names. The text is that of before, where all spans belong. -/
def renamed : Index :=
  { i with unit := { i.unit with items := i.unit.items.map (i.renamedItem r) } }

@[simp] theorem name_renamedContract (c : Contract) : (i.renamedContract r c).name = c.name := rfl

/-- The contracts of the renamed source are the renamed contracts. -/
theorem contracts_renamed : (i.renamed r).contracts = i.contracts.map (i.renamedContract r) := by
  simp only [contracts, Outline.contracts, renamed, List.filterMap_map, List.map_filterMap]
  congr
  funext item
  cases item <;> rfl

theorem freeNames_renamed : (i.renamed r).unit.freeNames = i.unit.freeNames := by
  simp only [Outline.freeNames, renamed, List.filterMap_map]
  congr
  funext item
  cases item <;> rfl

/-- Contracts are found under the names that they had. -/
theorem contract?_renamed (name : String) :
    (i.renamed r).contract? name = (i.contract? name).map (i.renamedContract r) := by
  have hContracts := i.contracts_renamed r
  simp only [contracts] at hContracts
  simp only [contract?, Outline.contract?, hContracts, List.find?_map]
  rfl

theorem contract_renamed (name : String) :
    (i.renamed r).contract name = (i.contract name).map (i.renamedContract r) := by
  unfold contract
  rw [contract?_renamed]
  cases i.contract? name <;> rfl

/-- The order of the ancestors depends on names of contracts only. -/
theorem ancestors_renamed (n : Nat) (active : List String) (name : String) :
    (i.renamed r).ancestors n active name = i.ancestors n active name := by
  induction n generalizing active name with
  | zero => rfl
  | succ n ih =>
      rw [ancestors, ancestors, contract?_renamed]
      cases i.contract? name with
      | none => rfl
      | some c =>
          have hBases : (i.renamedContract r c).bases.reverse.map Invocation.name =
              c.bases.reverse.map Invocation.name := by
            simp only [renamedContract, ← List.map_reverse, List.map_map]
            rfl
          have hRec : (i.renamed r).ancestors n (c.name :: active) =
              i.ancestors n (c.name :: active) := funext fun base => ih _ base
          simp only [Option.map_some, hBases, name_renamedContract, hRec]

/-- The ancestors of a contract are in the same order as before. -/
theorem linearize_renamed (name : String) :
    (i.renamed r).linearize name = (i.linearize name).map (List.map (i.renamedContract r)) := by
  unfold linearize
  rw [ancestors_renamed, show (i.renamed r).contracts.length = i.contracts.length by
    rw [contracts_renamed, List.length_map]]
  cases i.ancestors (i.contracts.length + 1) [] name with
  | error e => rfl
  | ok order =>
      change order.reverse.mapM (i.renamed r).contract = _
      rw [show (i.renamed r).contract = fun x => (i.contract x).map (i.renamedContract r) from
        funext (i.contract_renamed r), Outcome.mapM_map]
      rfl

/-- The first of the shortest entries is found before or after they are changed. -/
theorem shortest_map {α β : Type} (length : β → Nat) (g : α → β) (l : List α) :
    shortest length (l.map g) = (shortest (fun a => length (g a)) l).map g := by
  induction l with
  | nil => rfl
  | cons a rest ih =>
      rw [List.map_cons, shortest, shortest, ih]
      cases shortest (fun a => length (g a)) rest with
      | none => rfl
      | some b =>
          simp only [Option.map_some]
          split <;> rfl

/-- The function around an offset is the one that was there. -/
theorem functionAt?_renamed (offset : Nat) :
    (i.renamed r).functionAt? offset = (i.functionAt? offset).map fun place =>
      (i.renamedContract r place.1, i.renamedFunction r place.1 place.2) := by
  unfold functionAt?
  rw [contracts_renamed]
  have hAround : ((i.contracts.map (i.renamedContract r)).filter fun c =>
      c.span.contains offset).flatMap (fun c =>
        (c.functions.filter fun f => f.span.contains offset).map fun f => (c, f)) =
      ((i.contracts.filter fun c => c.span.contains offset).flatMap fun c =>
        (c.functions.filter fun f => f.span.contains offset).map fun f => (c, f)).map fun place =>
          (i.renamedContract r place.1, i.renamedFunction r place.1 place.2) := by
    simp only [List.filter_map, List.flatMap_map, List.map_flatMap, List.map_map]
    congr
    funext c
    simp only [renamedContract, List.filter_map, List.map_map]
    rfl
  rw [hAround, shortest_map]
  rfl

/-- What is not a function of a contract goes by its name as before. -/
theorem isOtherName_renamed (name : String) :
    (i.renamed r).isOtherName name = i.isOtherName name := by
  unfold isOtherName
  rw [contract?_renamed, freeNames_renamed, contracts_renamed, Option.isSome_map, List.any_map]
  rfl

/-- Variables keep their types. -/
theorem variableType?_renamed (c : Contract) (place : Option (Contract × Function))
    (name : String) :
    (i.renamed r).variableType? (i.renamedContract r c)
      (place.map fun p => i.renamedFunction r p.1 p.2) name =
        i.variableType? c (place.map Prod.snd) name := by
  have hLocal : ((place.map fun p => i.renamedFunction r p.1 p.2).bind fun f => f.declaration? name) =
      (place.map Prod.snd).bind fun f => f.declaration? name := by
    cases place with
    | none => rfl
    | some p =>
        obtain ⟨owner, f⟩ := p
        simp only [Option.map_some, Option.bind_some, Function.declaration?, renamedFunction,
          Option.map_map]
        rfl
  have hState : ((i.renamed r).stateVariable? (i.renamedContract r c) name).map
      (fun p => p.2.type) = (i.stateVariable? c name).map fun p => p.2.type := by
    unfold stateVariable?
    rw [linearize_renamed, name_renamedContract]
    cases i.linearize c.name with
    | error e => rfl
    | ok chain =>
        simp only [Except.map, ← List.map_reverse, List.findSome?_map, List.map_findSome?]
        refine congrArg (List.findSome? · chain.reverse) (funext fun owner => ?_)
        simp only [Function.comp_apply, Contract.variableNamed?, renamedContract, List.find?_map,
          Option.map_map]
        rfl
  unfold variableType?
  rw [hLocal]
  split
  · rfl
  · exact hState

/-- New names of functions do not change what is known of the type of an argument. -/
theorem argumentType_renamed (c : Contract) (place : Option (Contract × Function)) (e : Expr) :
    (i.renamed r).argumentType (i.renamedContract r c)
      (place.map fun p => i.renamedFunction r p.1 p.2) e =
        i.argumentType c (place.map Prod.snd) e := by
  unfold argumentType
  simp only [variableType?_renamed]

theorem inherits_renamed (name base : String) :
    (i.renamed r).inherits name base = i.inherits name base := by
  unfold inherits
  rw [linearize_renamed]
  cases i.linearize name with
  | error e => rfl
  | ok chain =>
      simp only [Except.map, List.any_map]
      rfl

/-- New names of functions do not change what can be passed. -/
theorem conversion_renamed (argument : ArgumentType) (parameter : String) :
    (i.renamed r).conversion argument parameter = i.conversion argument parameter := by
  cases argument with
  | typed actual =>
      simp only [conversion, conversionOfTyped, contract?_renamed, inherits_renamed,
        Option.isSome_map]
  | _ => rfl

/-- Arguments fit a function as well as they did. -/
theorem quality_renamed (c : Contract) (place : Option (Contract × Function))
    (arguments : List Expr) (d : FunctionRef) :
    (i.renamed r).quality (i.renamedContract r c)
      (place.map fun p => i.renamedFunction r p.1 p.2) arguments (i.renamedRef r d) =
        i.quality c (place.map Prod.snd) arguments d := by
  simp only [quality, argumentType_renamed, conversion_renamed]
  rfl

end Index

namespace Outline

/-- The calls in a function. -/
def Function.calls (f : Function) : List Call :=
  f.modifiers.flatMap Invocation.calls ++ (f.body.map Body.calls).getD []

/-- The calls in a contract. -/
def Contract.calls (c : Contract) : List Call :=
  c.bases.flatMap Invocation.calls ++ c.stateVariables.flatMap Variable.calls ++
    c.functions.flatMap Function.calls

section Sites

variable (c : Contract) (f : Option Function)

theorem filterMap_visitCalls (calls : List Call) :
    (visitCalls ⟨some c, f⟩ calls).filterMap callSite? = calls.map fun call => (c, call) := by
  simp [visitCalls, List.filterMap_map, callSite?, Function.comp_def]

/-- The calls of entries that hold nothing but calls. -/
theorem filterMap_visits {α : Type} (node : α → Node) (calls : α → List Call) (entries : List α)
    (hNode : ∀ a ∈ entries, callSite? (node a, ⟨some c, f⟩) = none) :
    (entries.flatMap fun a => visitWith (fun _ => true) (node a, ⟨some c, f⟩)
      (visitCalls ⟨some c, f⟩ (calls a))).filterMap callSite? =
        (entries.flatMap calls).map fun call => (c, call) := by
  induction entries with
  | nil => rfl
  | cons a rest ih =>
      have hRest := ih fun b hb => hNode b (List.mem_cons_of_mem _ hb)
      simp only [visitWith, if_true] at hRest ⊢
      rw [List.flatMap_cons, List.filterMap_append, List.filterMap_cons,
        hNode a List.mem_cons_self, filterMap_visitCalls, hRest, List.flatMap_cons, List.map_append]

/-- On the walk through a function the calls of its header come before those of its body. -/
theorem filterMap_visitFunction (g : Function) :
    (visitFunction (fun _ => true) c g).filterMap callSite? = g.calls.map fun call => (c, call) := by
  have hDeclared (list : List Variable) :
      (list.map fun v => (Node.variable v, (⟨some c, some g⟩ : Scope))).filterMap callSite? = [] := by
    simp [List.filterMap_eq_nil_iff, callSite?]
  have hIdents (list : List Ident) :
      (list.map fun x => (Node.ident x, (⟨some c, some g⟩ : Scope))).filterMap callSite? = [] := by
    simp [List.filterMap_eq_nil_iff, callSite?]
  have hModifiers := filterMap_visits c (some g) Node.modifier Invocation.calls g.modifiers
    fun _ _ => rfl
  have hSelf : callSite? (.function g, ⟨some c, none⟩) = none := rfl
  simp only [visitFunction]
  rw [visitWith, if_pos rfl, List.filterMap_cons, hSelf, List.filterMap_append,
    List.filterMap_append, hDeclared, hModifiers, Function.calls, List.map_append, List.nil_append]
  cases g.body with
  | none => rfl
  | some b =>
      simp only [List.filterMap_append, hDeclared, hIdents, filterMap_visitCalls, List.nil_append,
        List.append_nil]
      rfl

theorem filterMap_visitContract :
    (visitContract (fun _ => true) c).filterMap callSite? = c.calls.map fun call => (c, call) := by
  have hBases := filterMap_visits c none Node.modifier Invocation.calls c.bases fun _ _ => rfl
  have hVariables := filterMap_visits c none Node.variable Variable.calls c.stateVariables
    fun _ _ => rfl
  have hSelf : callSite? (.contract c, .outside) = none := rfl
  simp only [visitContract]
  rw [visitWith, if_pos rfl, List.filterMap_cons, hSelf, List.filterMap_append,
    List.filterMap_append, hBases, hVariables, List.filterMap_flatMap, Contract.calls,
    List.map_append, List.map_append]
  simp only [filterMap_visitFunction, List.map_flatMap]

end Sites

/-- The calls of a source are those of its contracts. -/
theorem callSites_eq (u : Outline) :
    u.callSites = u.contracts.flatMap fun c => c.calls.map fun call => (c, call) := by
  unfold callSites walk contracts
  induction u.items with
  | nil => rfl
  | cons item rest ih =>
      rw [List.flatMap_cons, List.filterMap_append, ih]
      cases item with
      | contract c =>
          rw [List.filterMap_cons, List.flatMap_cons]
          exact congrArg (· ++ _) (filterMap_visitContract c)
      | _ => rfl

end Outline

namespace Index

variable (i : Index) (r : Renames)

/-- Every call of a contract follows the function that it means. -/
theorem calls_renamedContract (c : Contract) :
    (i.renamedContract r c).calls = c.calls.map (CallSite.follow i r c) := by
  have hFunction (f : Function) :
      (i.renamedFunction r c f).calls = f.calls.map (CallSite.follow i r c) := by
    simp only [Function.calls, renamedFunction, List.flatMap_map, List.map_append,
      List.map_flatMap]
    cases f.body <;> rfl
  simp only [Contract.calls, renamedContract, List.flatMap_map, List.map_append, List.map_flatMap,
    hFunction]
  rfl

/-- Every call stands where it stood. -/
theorem callSites_renamed :
    (i.renamed r).unit.callSites = i.unit.callSites.map fun site =>
      (i.renamedContract r site.1, CallSite.follow i r site.1 site.2) := by
  have hContracts := i.contracts_renamed r
  simp only [contracts] at hContracts
  rw [callSites_eq, callSites_eq, hContracts, List.flatMap_map, List.map_flatMap]
  congr
  funext c
  rw [calls_renamedContract, List.map_map, List.map_map]
  rfl

end Index

end SolNorm
