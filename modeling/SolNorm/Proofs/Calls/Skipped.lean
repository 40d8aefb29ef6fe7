import SolNorm.Proofs.Calls.Binding

/-!
Calls that are passed over in silence. A call by a name that stands alone is passed over if the name
means something else than a function of a contract. What it means is looked up in the whole source, so
a declaration that the contract of the call does not see is enough for that. Every other call of a
renamed function is followed or warned of.
-/

namespace SolNorm

open Outline

namespace Index

variable {i : Index} {c : Contract} {chain : List Contract} {f : Option Function} {name : String}

/-- A variable of the name is in scope: a parameter, a result or a local of the function around, or a
variable of one of the contracts. -/
def InScope (chain : List Contract) (f : Option Function) (name : String) : Prop :=
  (∃ g ∈ f, ∃ v ∈ g.parameters ++ g.returns ++ (g.body.map Body.locals).getD [],
    v.name = some name) ∨
  ∃ a ∈ chain, ∃ v ∈ a.stateVariables, v.name = some name

/-- The name is declared where contracts do not see it: by a type of a contract that is not among
them, as a contract or outside of contracts. -/
def DeclaredElsewhere (i : Index) (chain : List Contract) (name : String) : Prop :=
  (∃ a ∈ i.contracts, a.name = lastSegment name) ∨ name ∈ i.unit.freeNames ∨
    ∃ a ∈ i.contracts, a ∉ chain ∧ name ∈ a.typeNames

/-- A name has a type if it is in scope. -/
theorem isSome_variableType?_iff (hChain : i.linearize c.name = .ok chain) :
    (i.variableType? c f name).isSome = true ↔ InScope chain f name := by
  have hLocal : (f.bind fun g => g.declaration? name).isSome = true ↔
      ∃ g ∈ f, ∃ v ∈ g.parameters ++ g.returns ++ (g.body.map Body.locals).getD [],
        v.name = some name := by
    cases f with
    | none => simp
    | some g =>
        rw [Option.bind_some, Function.declaration?, List.find?_isSome]
        simp
  have hState : (i.stateVariable? c name).isSome = true ↔
      ∃ a ∈ chain, ∃ v ∈ a.stateVariables, v.name = some name := by
    simp [stateVariable?, hChain, List.findSome?_isSome_iff, Contract.variableNamed?]
  unfold variableType? InScope
  rw [← hLocal, ← hState]
  cases f.bind fun g => g.declaration? name with
  | none => simp
  | some v => simp

theorem isSome_contract?_iff :
    (i.contract? name).isSome = true ↔ ∃ a ∈ i.contracts, a.name = lastSegment name := by
  simp [contract?, Outline.contract?, contracts]

/-- What means something else than a function in the whole source is declared along the contracts or
elsewhere. -/
theorem isOtherName_iff (hTypes : ∀ a ∈ chain, name ∉ a.typeNames) :
    i.isOtherName name = true ↔ i.DeclaredElsewhere chain name := by
  unfold isOtherName DeclaredElsewhere
  rw [Bool.or_eq_true, Bool.or_eq_true, isSome_contract?_iff, List.contains_iff_mem, or_assoc,
    List.any_eq_true]
  simp only [List.contains_iff_mem]
  refine or_congr_right (or_congr_right (exists_congr fun a => and_congr_right fun _ => ?_))
  exact ⟨fun hName => ⟨fun hMem => hTypes a hMem hName, hName⟩, And.right⟩

/-- A call by a name that stands alone refers to no function without being a failure exactly when the
name is hidden. -/
theorem resolve_eq_none_iff {call : Call} (hAlone : call.receiver = .none) :
    i.resolve c call = .ok none ↔ i.hides c (i.enclosing? call) call.callee = true := by
  unfold resolve scopeOf
  rw [Outcome.bind_eq_ok_iff]
  simp only [hAlone]
  constructor
  · rintro ⟨scope, hScope, hNone⟩
    by_contra hHides
    rw [if_neg hHides] at hScope
    unfold searchFrom at hScope
    split at hScope
    · cases hScope
      dsimp only at hNone
      split at hNone <;> cases hNone
    · cases hScope
  · intro hHides
    exact ⟨none, by rw [if_pos hHides], rfl⟩

end Index

namespace CallSite

variable {i : Index} {r : Renames} {c : Contract} {call : Call}

/-- A call by a name that stands alone, in a contract that sees a renamed function of the name and
nothing else of the name. -/
structure CallsRenamed (i : Index) (r : Renames) (chain : List Contract) (call : Call) : Prop where
  alone : call.receiver = .none
  renamed : ∃ d ∈ visibleOverloads chain call.callee, r.find? d.key ≠ none
  notBuiltin : Index.isBuiltin call.callee = false
  noVariable : ¬ Index.InScope chain (i.enclosing? call) call.callee
  noType : ∀ a ∈ chain, call.callee ∉ a.typeNames

/-- The call is edited, there is a warning for it, or it refers to a function that keeps its name. -/
def Heeded (i : Index) (r : Renames) (c : Contract) (call : Call) : Prop :=
  (edit? i r c call).isSome = true ∨ (issue? i c call).isSome = true ∨
    ∃ t, i.resolve c call = .ok (some t) ∧ r.find? t.key = none

/-- Only calls that refer to no function are passed over. -/
theorem heeded_iff : Heeded i r c call ↔ i.resolve c call ≠ .ok none := by
  unfold Heeded edit? issue?
  cases i.resolve c call with
  | error e => simp
  | ok found =>
      cases found with
      | none => simp
      | some t => cases hFind : r.find? t.key <;> simp [hFind]

/-- Once functions have been told apart, a call in a contract that sees a renamed function of its name
and nothing else of that name is edited, warned of or bound to a function that keeps its name, unless
the name is declared where the contract does not see it. In that case, and only then, the call is
passed over. -/
theorem heeded_iff_not_declaredElsewhere {hash : String → Selector} {m : Marking}
    (hRun : Collision.separateAll hash i = .ok m) (hSite : (c, call) ∈ i.unit.callSites) :
    ∃ chain, i.linearize c.name = .ok chain ∧ (CallsRenamed i m.renames chain call →
      (Heeded i m.renames c call ↔ ¬ i.DeclaredElsewhere chain call.callee)) := by
  have hc : c ∈ i.contracts := by
    rw [callSites_eq, List.mem_flatMap] at hSite
    obtain ⟨a, ha, hCall⟩ := hSite
    obtain ⟨_, _, hPair⟩ := List.mem_map.mp hCall
    exact (Prod.mk.inj hPair).1 ▸ ha
  obtain ⟨groups, hGroups, _⟩ := (Collision.separateAll_eq_ok hRun).2 c hc
  obtain ⟨chain, hChain, _⟩ := signatureGroups_eq_ok_iff.mp hGroups
  refine ⟨chain, hChain, fun hCall => ?_⟩
  have hVariable : (i.variableType? c (i.enclosing? call) call.callee).isSome = false := by
    rw [Bool.eq_false_iff]
    exact fun hSome => hCall.noVariable ((Index.isSome_variableType?_iff hChain).mp hSome)
  rw [heeded_iff, ne_eq, Index.resolve_eq_none_iff hCall.alone, Index.hides, hCall.notBuiltin,
    hVariable, Bool.false_or, Bool.or_false, Index.isOtherName_iff hCall.noType]

/-- A call of `foo`. -/
def fooCall : Call :=
  { callee := "foo", calleeSpan := ⟨35, 38⟩, receiver := .none
    arguments := [⟨.name "y", ⟨36, 37⟩, []⟩], span := ⟨35, 39⟩ }

/-- A contract with two functions `foo` that cannot be told apart, and one that calls the second. -/
def fooCaller : Contract :=
  let argument : Variable :=
    { (default : Variable) with name := some "y", type := ⟨"uint256[]", default⟩ }
  let bar : Function :=
    { (default : Function) with
      kind := .function, name := "bar", nameSpan := some ⟨30, 33⟩, parameters := [argument]
      body := some { (default : Body) with calls := [fooCall] }, span := ⟨30, 39⟩ }
  { (default : Contract) with
    name := "A", span := ⟨0, 50⟩
    functions := [Collision.overload "foo" "uint256" 10, Collision.overload "foo" "uint256[]" 20,
      bar] }

/-- A type of another contract has the name of the function that is called. -/
def namesake : Index :=
  { (default : Index) with
    unit := ⟨[.contract fooCaller,
      .contract { (default : Contract) with name := "B", typeNames := ["foo"] }], default⟩ }

/-- The call is neither followed nor warned of, although the contract of the call does not see the
type. The hash is the length of a text. -/
theorem namesake_passed_over :
    ∃ m, Collision.separateAll (fun text => text.length.toUInt32) namesake = .ok m ∧
      (fooCaller, fooCall) ∈ namesake.unit.callSites ∧
      namesake.linearize "A" = .ok [fooCaller] ∧
      CallsRenamed namesake m.renames [fooCaller] fooCall ∧
      namesake.DeclaredElsewhere [fooCaller] "foo" ∧ ¬ Heeded namesake m.renames fooCaller fooCall := by
  have hRun : (Collision.separateAll (fun text => text.length.toUInt32) namesake).map
      Marking.renames = .ok [⟨⟨"A", "foo", ["uint256[]"]⟩, "foo_uint256_dyn", ⟨20, 23⟩⟩] := by
    cbv
  have hSite : (fooCaller, fooCall) ∈ namesake.unit.callSites := by decide +kernel
  have hChain : namesake.linearize "A" = .ok [fooCaller] := by rfl
  have hElsewhere : namesake.DeclaredElsewhere [fooCaller] "foo" := by
    unfold Index.DeclaredElsewhere
    decide +kernel
  have hAround : namesake.enclosing? fooCall = fooCaller.functions[2]? := by decide +kernel
  obtain ⟨m, hOk, hRenames⟩ := Outcome.map_eq_ok_iff.mp hRun
  have hCall : CallsRenamed namesake m.renames [fooCaller] fooCall := by
    refine ⟨rfl, ?_, by decide +kernel, ?_, by decide +kernel⟩
    · rw [hRenames]
      decide +kernel
    · unfold Index.InScope
      rw [hAround]
      decide +kernel
  obtain ⟨chain, hOwn, hHeeded⟩ := heeded_iff_not_declaredElsewhere hOk hSite
  obtain rfl : [fooCaller] = chain := Except.ok.inj (hChain.symm.trans hOwn)
  exact ⟨m, hOk, hSite, hChain, hCall, hElsewhere,
    fun h => (hHeeded hCall).mp h hElsewhere⟩

end CallSite

end SolNorm
