import SolNorm.Constructor.Merge
import SolNorm.Proofs.Construction.Arguments

/-!
The edits of a merge and the plans behind them. A merge writes the headers of converted constructors,
takes away what was given to them, and writes the constructors of the main contract and of others so
that they start with calls. Each of these edits has one place and one text.
-/

namespace SolNorm.Construction

open Outline

/-- The constructors along some contracts, in the order in which they run. -/
def constructorsOf (chain : List Contract) : List (Contract × Function) :=
  chain.filterMap fun c => c.constructor?.map fun f => (c, f)

/-- The names of the contracts with a constructor among some contracts. -/
def constructed (contracts : List Contract) : List String :=
  (contracts.filter fun c => c.constructor?.isSome).map Contract.name

/-- The call of a function that the constructor of a base has become. -/
structure Initialization where
  base : Contract
  ctor : Function
  arguments : List String

namespace Initialization

/-- The name of the called function. -/
def name (x : Initialization) : String := initializerName x.base.name

def text (x : Initialization) : String :=
  x.name ++ "(" ++ ", ".intercalate x.arguments ++ ")"

/-- The constructor whose body the call is for. -/
def source (x : Initialization) : Contract × Function := (x.base, x.ctor)

end Initialization

/-- Different bases get functions with different names. -/
theorem initializerName_injective : Function.Injective initializerName := by
  intro a b h
  rw [← String.toList_inj] at h ⊢
  simpa [initializerName] using h

/-- The constructors along a chain are those that its contracts declare. -/
theorem mem_constructorsOf_iff {chain : List Contract} {x : Contract × Function} :
    x ∈ constructorsOf chain ↔ x.1 ∈ chain ∧ x.1.constructor? = some x.2 := by
  obtain ⟨c, f⟩ := x
  simp only [constructorsOf, List.mem_filterMap, Option.map_eq_some_iff, Prod.mk.injEq]
  constructor
  · rintro ⟨d, hd, g, hg, rfl, rfl⟩
    exact ⟨hd, hg⟩
  · rintro ⟨hc, hf⟩
    exact ⟨c, hc, f, hf, rfl, rfl⟩

theorem constructorsOf_append (xs ys : List Contract) :
    constructorsOf (xs ++ ys) = constructorsOf xs ++ constructorsOf ys :=
  List.filterMap_append

theorem constructorsOf_filter (p : Contract → Bool) (chain : List Contract) :
    constructorsOf (chain.filter p) = (constructorsOf chain).filter fun x => p x.1 := by
  induction chain with
  | nil => rfl
  | cons c rest ih =>
      cases hp : p c <;> cases hCtor : c.constructor? <;>
        simp [constructorsOf, hp, hCtor] at ih ⊢ <;> exact ih

/-- What is made of the contracts with constructors is made of the constructors. -/
theorem map_filter_constructor? {α : Type} (bases : List Contract) (isInitialized : Contract → Bool)
    (g : Contract → α) :
    (bases.filter fun b => b.constructor?.isSome && isInitialized b).map g =
      (constructorsOf (bases.filter isInitialized)).map fun x => g x.1 := by
  induction bases with
  | nil => rfl
  | cons b rest ih =>
      cases hInit : isInitialized b <;> cases hCtor : b.constructor? <;>
        simp [constructorsOf, hInit, hCtor] at ih ⊢ <;> exact ih

/-- The contracts with a constructor, by their names. -/
theorem constructed_eq (contracts : List Contract) :
    constructed contracts = (constructorsOf contracts).map fun x => x.1.name := by
  have hMap := map_filter_constructor? contracts (fun _ => true) Contract.name
  simp only [Bool.and_true, List.filter_true] at hMap
  exact hMap

section

variable {i : Index} {contract : Contract} {isInitialized : Contract → Bool} {p : Plan}
  {bases : List Contract} {derived : Contract} {bindings : List Binding}

/-- What the constructor of a contract is given among all. -/
def supplied (supplies : List Supply) (c : Contract) : List String :=
  ((supplies.find? fun s => s.contract == c.name).map Supply.values).getD []

/-- The call of a constructor with what its contract is given. -/
def callOf (supplies : List Supply) (x : Contract × Function) : Initialization :=
  ⟨x.1, x.2, supplied supplies x.1⟩

theorem text_callOf (supplies : List Supply) (x : Contract × Function) :
    (callOf supplies x).text = initializerCall supplies x.1 := rfl

/-- The calls are made for the constructors from which they were taken, in their order. -/
theorem map_source_callOf (supplies : List Supply) (ctors : List (Contract × Function)) :
    (ctors.map (callOf supplies)).map Initialization.source = ctors := by
  rw [List.map_map]
  exact List.map_id _

/-- The parts of a plan: the order of the contracts, the arguments that are given along it, and the
parameters and calls that are made of them. The order is found by the name of the contract, so it ends
with the first contract of that name. -/
structure IsPlanned (i : Index) (contract : Contract) (isInitialized : Contract → Bool) (p : Plan)
    (bases : List Contract) (derived : Contract) (bindings : List Binding) : Prop where
  subject : p.contract = contract
  found : i.contract? contract.name = some derived
  order : i.linearize contract.name = .ok (bases ++ [derived])
  chain : p.chain = bases ++ [derived]
  given : bindingsOf contract (bases ++ [derived]) = .ok bindings
  parameters : p.report.parameters =
    (exposedParameters i.text contract bases bindings isInitialized).map Exposed.declaration ++
      (parametersOf contract).map fun v => v.span.slice i.text
  initializers : p.report.initializers = ((constructorsOf (bases.filter isInitialized)).map
    (callOf (suppliesOf i.text contract (bases ++ [derived]) bindings
      (exposedParameters i.text contract bases bindings isInitialized)))).map Initialization.text

/-- What a plan that succeeds was made from. -/
theorem isPlanned_of_plan (h : plan i contract isInitialized = .ok p) :
    ∃ bases derived bindings, IsPlanned i contract isInitialized p bases derived bindings := by
  obtain ⟨chain, hChain, h⟩ := Outcome.bind_eq_ok_iff.mp h
  obtain ⟨bindings, hBindings, rfl⟩ := Outcome.bind_pure_eq_ok_iff.mp h
  obtain ⟨derived, bases, hFound, rfl⟩ := Index.linearize_eq_append hChain
  refine ⟨bases, derived, bindings, rfl, hFound, hChain, rfl, hBindings, ?_, ?_⟩
  · simp only [List.dropLast_concat]
  · simp only [List.dropLast_concat, List.map_map]
    rw [map_filter_constructor? bases isInitialized]
    exact List.map_congr_left fun x _ => (text_callOf _ x).symm

/-- The plan for the first contract of a name is about the order of that contract. -/
theorem isPlanned_of_self (h : plan i contract isInitialized = .ok p)
    (hSelf : i.contract? contract.name = some contract) :
    ∃ bases bindings, IsPlanned i contract isInitialized p bases contract bindings := by
  obtain ⟨bases, derived, bindings, hPlanned⟩ := isPlanned_of_plan h
  obtain rfl : contract = derived := Option.some.inj (hSelf.symm.trans hPlanned.found)
  exact ⟨bases, bindings, hPlanned⟩

namespace IsPlanned

theorem nodup (h : IsPlanned i contract isInitialized p bases derived bindings) :
    ((bases ++ [derived]).map Contract.name).Nodup :=
  Index.nodup_of_linearize h.order

/-- No base has the name of the contract, not even when several contracts have that name. -/
theorem name_ne (h : IsPlanned i contract isInitialized p bases derived bindings) {base : Contract}
    (hBase : base ∈ bases) : base.name ≠ contract.name := by
  intro hName
  have hSelf := Index.contract?_of_mem_linearize h.order (List.mem_append_left _ hBase)
  rw [hName, h.found, Option.some.injEq] at hSelf
  have hNodup := h.nodup
  rw [List.map_append, List.nodup_append] at hNodup
  exact hNodup.2.2 _ (List.mem_map_of_mem hBase) _ (by simp) (congrArg Contract.name hSelf.symm)

/-- Every base that is initialized is given as many values as its constructor has parameters. -/
theorem length_supplied (h : IsPlanned i contract isInitialized p bases derived bindings)
    {base : Contract} (hBase : base ∈ bases) (hInit : isInitialized base = true) :
    (supplied (suppliesOf i.text contract (bases ++ [derived]) bindings
      (exposedParameters i.text contract bases bindings isInitialized)) base).length =
        (parametersOf base).length := by
  obtain ⟨s, before, hFind, hValues⟩ := find?_suppliesOf i.text contract bindings
    (exposedParameters i.text contract bases bindings isInitialized) h.nodup
    (List.mem_append_left _ hBase)
  rw [supplied, hFind, Option.map_some, Option.getD_some, hValues]
  exact length_argumentsFor i.text before h.nodup (bindingsOf_complete h.given) hBase
    (h.name_ne hBase) hInit

end IsPlanned

/-- What is planned for a contract: calls for the constructors of the initialized bases, in the order of
the chain, with as many arguments as they have parameters. -/
theorem initializers_of_plan (h : plan i contract isInitialized = .ok p) :
    p.contract = contract ∧ i.linearize contract.name = .ok p.chain ∧
      ∃ calls : List Initialization,
        calls.map Initialization.source =
          constructorsOf (p.chain.dropLast.filter isInitialized) ∧
        p.report.initializers = calls.map Initialization.text ∧
        ∀ x ∈ calls, x.arguments.length = x.ctor.parameters.length := by
  obtain ⟨bases, derived, bindings, hPlanned⟩ := isPlanned_of_plan h
  refine ⟨hPlanned.subject, hPlanned.chain ▸ hPlanned.order, _, ?_, hPlanned.initializers, ?_⟩
  · rw [map_source_callOf, hPlanned.chain, List.dropLast_concat]
  · intro x hx
    obtain ⟨⟨base, f⟩, hMem, rfl⟩ := List.mem_map.mp hx
    obtain ⟨hBase, hCtor⟩ := mem_constructorsOf_iff.mp hMem
    obtain ⟨hBase, hInit⟩ := List.mem_filter.mp hBase
    have hParameters : parametersOf base = f.parameters := by
      rw [parametersOf, hCtor]
      rfl
    exact hParameters ▸ hPlanned.length_supplied hBase hInit

end

theorem bodySpan_eq_ok_iff {c : Contract} {f : Function} {span : Span} :
    bodySpan c f = .ok span ↔ ∃ body, f.body = some body ∧ body.span = span := by
  unfold bodySpan
  cases f.body with
  | none => simp
  | some body => simp

/-- The edits make the constructor of a contract start with some calls: they are put behind the
opening brace of its body, or into a constructor that is added. A header that is written anew keeps
its attributes and the modifiers that do not name a base without a constructor. -/
def StartsWith (i : Index) (converted : List String) (c : Contract) (parameters calls : List String)
    (edits : List Edit) : Prop :=
  let inserted := String.join (calls.map fun call => "\n        " ++ call ++ ";")
  let declared := ", ".intercalate parameters
  match c.constructor? with
  | some f =>
    let attributes := f.attributes.map fun a => " " ++ a.text
    let modifiers := (f.modifiers.filter fun m => !isDropped i converted m).map fun m =>
      " " ++ m.span.slice i.text
    ∃ body, f.body = some body ∧
      edits = [⟨⟨f.span.start, body.span.start⟩,
          "constructor(" ++ declared ++ ")" ++ String.join (attributes ++ modifiers) ++ " "⟩,
        ⟨.point (body.span.start + 1), inserted⟩]
  | none => edits = [⟨.point (c.bodySpan.start + 1),
      "\n    constructor(" ++ declared ++ ") \x7b" ++ inserted ++ "\n    \x7d\n"⟩]

/-- The edits of a plan write the constructor of its contract. -/
theorem startsWith_of_mergeEdits {i : Index} {converted : List String} {p : Plan}
    {edits : List Edit} (h : mergeEdits i converted p = .ok edits) :
    StartsWith i converted p.contract p.report.parameters p.report.initializers edits := by
  unfold mergeEdits at h
  unfold StartsWith
  cases hCtor : p.contract.constructor? with
  | some f =>
      simp only [hCtor] at h ⊢
      obtain ⟨span, hBody, h⟩ := Outcome.bind_pure_eq_ok_iff.mp h
      obtain ⟨body, hSome, rfl⟩ := bodySpan_eq_ok_iff.mp hBody
      exact ⟨body, hSome, h.symm⟩
  | none =>
      simp only [hCtor] at h ⊢
      rw [Outcome.pure_eq_ok_iff] at h
      rw [← h]
      rfl

/-- An edit takes away what a contract gives to a converted base: the arguments where it names the
base, or the whole invocation in the header of a constructor that is neither converted nor written
anew. -/
inductive TakesAway (i : Index) (converted rewritten : List String) : Edit → Prop where
  | arguments {c : Contract} {m : Invocation} {span : Span} (owner : c ∈ i.contracts)
      (site : m ∈ c.bases) (named : lastSegment m.name ∈ converted)
      (place : m.argsSpan = some span) : TakesAway i converted rewritten ⟨span, ""⟩
  | invocation {c : Contract} {f : Function} {m : Invocation} (owner : c ∈ i.contracts)
      (ctor : c.constructor? = some f) (site : m ∈ f.modifiers)
      (named : lastSegment m.name ∈ converted) (unconverted : c.name ∉ converted)
      (unwritten : c.name ∉ rewritten) : TakesAway i converted rewritten ⟨m.span, ""⟩

/-- The removals in all contracts take away what is given to converted bases. -/
theorem mem_removedArguments_iff {i : Index} {converted rewritten : List String} {e : Edit} :
    e ∈ i.contracts.flatMap (removedArguments converted rewritten) ↔
      TakesAway i converted rewritten e := by
  simp only [List.mem_flatMap, removedArguments, List.mem_append, List.mem_filterMap, List.mem_map,
    List.mem_filter, List.contains_iff_mem, Option.map_eq_some_iff]
  constructor
  · rintro ⟨c, hc, ⟨m, ⟨hm, hNamed⟩, span, hSpan, rfl⟩ | ⟨m, ⟨hm, hNamed⟩, rfl⟩⟩
    · exact .arguments hc hm hNamed hSpan
    · split at hm
      · cases hm
      · rename_i hKept
        simp only [Bool.or_eq_true, List.contains_iff_mem, not_or] at hKept
        cases hCtor : c.constructor? with
        | none => simp [hCtor] at hm
        | some f =>
            rw [hCtor] at hm
            exact .invocation hc hCtor hm hNamed hKept.1 hKept.2
  · rintro (⟨hc, hm, hNamed, hSpan⟩ | ⟨hc, hCtor, hm, hNamed, hUnconverted, hUnwritten⟩)
    · exact ⟨_, hc, .inl ⟨_, ⟨hm, hNamed⟩, _, hSpan, rfl⟩⟩
    · refine ⟨_, hc, .inr ⟨_, ⟨?_, hNamed⟩, rfl⟩⟩
      simpa [hCtor, hUnconverted, hUnwritten] using hm

/-- A contract whose constructor is written anew, with the calls that it starts with. -/
structure Rewrite where
  contract : Contract
  parameters : List String
  calls : List Initialization
  edits : List Edit

/-- The edits of a merge: they convert constructors into functions, take away what was given to them,
and make the constructors of some contracts start with calls. -/
structure WrittenBy (i : Index) (converted : List (Contract × Function)) (rewrites : List Rewrite)
    (edits : List Edit) : Prop where
  parts : ∃ headers removed, edits = headers ++ removed ++ rewrites.flatMap Rewrite.edits ∧
    List.Forall₂ (fun x e => convert i x.1 x.2 = .ok e) converted headers ∧
    ∀ e, e ∈ removed ↔ TakesAway i (converted.map fun x => x.1.name)
      (constructed (rewrites.map Rewrite.contract)) e
  starts : ∀ r ∈ rewrites, StartsWith i (converted.map fun x => x.1.name) r.contract r.parameters
    (r.calls.map Initialization.text) r.edits

/-- The names of the contracts along a chain whose constructors are converted. -/
def convertedNames (chain : List Contract) : List String := constructed chain.dropLast

/-- The orders of the contracts outside of a chain that inherit a converted base. -/
def affectedBy (i : Index) (chain : List Contract) : List (String × List Contract) :=
  affectedChains i (chain.map Contract.name) (convertedNames chain)

/-- The contracts that are affected by converting the constructors along the chain of a contract. -/
def affectedContracts (i : Index) (main : Contract) (chain : List Contract) :
    List (Contract × List Contract) :=
  (otherConcrete i main).filterMap fun c =>
    ((affectedBy i chain).lookup c.name).map fun own => (c, own)

/-- Whether an affected contract calls for the constructor of a base: it is converted, and no affected
base has it called. -/
def isLeftTo (i : Index) (chain own : List Contract) (b : Contract) : Bool :=
  (convertedNames chain).contains b.name &&
    !(coveredBases (affectedBy i chain) (convertedNames chain) own).contains b.name

/-- The other contracts that are rewritten can be deployed and build on a converted base. -/
theorem mem_affectedContracts_iff {i : Index} {main c : Contract} {chain own : List Contract} :
    (c, own) ∈ affectedContracts i main chain ↔
      c ∈ i.contracts ∧ c.isConcrete = true ∧ c.name ≠ main.name ∧
        (affectedBy i chain).lookup c.name = some own := by
  simp only [affectedContracts, otherConcrete, List.mem_filterMap, List.mem_filter,
    Bool.and_eq_true, bne_iff_ne, Option.map_eq_some_iff, Prod.mk.injEq]
  constructor
  · rintro ⟨d, ⟨hd, hConcrete, hName⟩, order, hLookup, rfl, rfl⟩
    exact ⟨hd, hConcrete, hName, hLookup⟩
  · rintro ⟨hc, hConcrete, hName, hLookup⟩
    exact ⟨c, ⟨hc, hConcrete, hName⟩, own, hLookup, rfl, rfl⟩

/-- The plan for an affected contract is a plan for the bases that are left to it. It is applied if it
has calls. -/
theorem plan_of_affectedPlan {i : Index} {chain own : List Contract} {c : Contract} {p : Plan}
    (h : affectedPlan i (affectedBy i chain) (convertedNames chain) c own = .ok p) :
    ∃ q, plan i c (isLeftTo i chain own) = .ok q ∧ p.contract = q.contract ∧
      p.report.parameters = q.report.parameters ∧
      p.report.initializers = q.report.initializers ∧
      p.report.isApplied = !q.report.initializers.isEmpty := by
  obtain ⟨q, hPlan, rfl⟩ := Outcome.bind_pure_eq_ok_iff.mp h
  exact ⟨q, hPlan, rfl, rfl, rfl, rfl⟩

theorem contract_of_affectedPlan {i : Index} {affected : List (String × List Contract)}
    {converted : List String} {c : Contract} {own : List Contract} {p : Plan}
    (h : affectedPlan i affected converted c own = .ok p) : p.contract = c := by
  obtain ⟨q, hPlan, rfl⟩ := Outcome.bind_pure_eq_ok_iff.mp h
  exact (initializers_of_plan hPlan).1

/-- The parts of a merge: plans for the affected contracts, the edits that convert constructors, and
those that write the constructors of the main contract and of the affected ones with calls. -/
theorem mergeFor_eq_ok {i : Index} {main : Plan} {edits : List Edit} {reports : List Report}
    (h : mergeFor i main = .ok (edits, reports)) :
    ∃ plans headers removed merges rest,
      (affectedContracts i main.contract main.chain).mapM (fun x =>
        affectedPlan i (affectedBy i main.chain) (convertedNames main.chain) x.1 x.2) = .ok plans ∧
      List.Forall₂ (fun x e => convert i x.1 x.2 = .ok e)
        (constructorsOf main.chain.dropLast) headers ∧
      (∀ e, e ∈ removed ↔ TakesAway i (convertedNames main.chain) (constructed
        ((main :: plans.filter fun p => p.report.isApplied).map Plan.contract)) e) ∧
      List.Forall₂ (fun p es => mergeEdits i (convertedNames main.chain) p = .ok es)
        (main :: plans.filter fun p => p.report.isApplied) merges ∧
      edits = headers ++ removed ++ merges.flatten ∧
      reports = { main.report with isApplied := true } :: rest := by
  obtain ⟨plans, hPlans, h⟩ := Outcome.bind_eq_ok_iff.mp h
  obtain ⟨conversions, hConversions, h⟩ := Outcome.bind_eq_ok_iff.mp h
  obtain ⟨merges, hMerges, h⟩ := Outcome.bind_pure_eq_ok_iff.mp h
  obtain ⟨headers, hHeaders, rfl⟩ := Outcome.bind_pure_eq_ok_iff.mp hConversions
  rw [Prod.mk.injEq] at h
  refine ⟨plans, headers, _, merges, _, hPlans, Outcome.mapM_eq_ok_iff.mp hHeaders,
    fun e => mem_removedArguments_iff, Outcome.mapM_eq_ok_iff.mp hMerges, ?_, h.2.symm⟩
  rw [← h.1, constructed, List.filter_map, List.map_map]
  rfl

/-- What is planned for a contract is how its constructor is written. -/
structure Rewrite.IsPlanned (i : Index) (isInitialized : Contract → Bool) (r : Rewrite) (p : Plan) :
    Prop where
  planned : plan i r.contract isInitialized = .ok p
  parameters : r.parameters = p.report.parameters
  calls : r.calls.map Initialization.source = constructorsOf (p.chain.dropLast.filter isInitialized)
  reported : p.report.initializers = r.calls.map Initialization.text
  arity : ∀ x ∈ r.calls, x.arguments.length = x.ctor.parameters.length

/-- The edits that write a constructor are a rewrite with the calls that were planned. -/
theorem exists_rewrite {i : Index} {converted : List String} {isInitialized : Contract → Bool}
    {p q : Plan} {c : Contract} {edits : List Edit} (hPlan : plan i c isInitialized = .ok q)
    (hContract : p.contract = q.contract) (hParameters : p.report.parameters = q.report.parameters)
    (hCalls : p.report.initializers = q.report.initializers)
    (h : mergeEdits i converted p = .ok edits) :
    ∃ r : Rewrite, r.contract = c ∧ r.edits = edits ∧ r.IsPlanned i isInitialized q ∧
      StartsWith i converted r.contract r.parameters (r.calls.map Initialization.text) r.edits := by
  obtain ⟨rfl, _, calls, hSources, hText, hArity⟩ := initializers_of_plan hPlan
  refine ⟨⟨q.contract, q.report.parameters, calls, edits⟩, rfl, rfl,
    ⟨hPlan, rfl, hSources, hText, hArity⟩, ?_⟩
  rw [← hText, ← hContract, ← hParameters, ← hCalls]
  exact startsWith_of_mergeEdits h

/-- Rewrites that are found for one plan at a time are found for all, in the order of the plans. -/
theorem exists_rewrites {R : Plan → List Edit → Prop} {P : Rewrite → Prop} {plans : List Plan}
    {merges : List (List Edit)} (h : List.Forall₂ R plans merges)
    (hEach : ∀ p ∈ plans, ∀ edits, R p edits →
      ∃ r : Rewrite, r.contract = p.contract ∧ r.edits = edits ∧ P r) :
    ∃ rewrites : List Rewrite, rewrites.map Rewrite.contract = plans.map Plan.contract ∧
      rewrites.map Rewrite.edits = merges ∧ ∀ r ∈ rewrites, P r := by
  induction h with
  | nil => exact ⟨[], rfl, rfl, by simp⟩
  | cons hHead _ ih =>
      obtain ⟨r, hContract, hEdits, hr⟩ := hEach _ List.mem_cons_self _ hHead
      obtain ⟨rewrites, hContracts, hMerges, hAll⟩ :=
        ih fun p hp => hEach p (List.mem_cons_of_mem _ hp)
      refine ⟨r :: rewrites, ?_, ?_, List.forall_mem_cons.mpr ⟨hr, hAll⟩⟩
      · rw [List.map_cons, List.map_cons, hContract, hContracts]
      · rw [List.map_cons, hEdits, hMerges]

/-- A merge writes the constructors of the main contract and of affected contracts as is planned for
them. An affected contract is left out only if there is nothing for it to call. -/
theorem planned_of_mergeFor {i : Index} {main : Contract} {p : Plan} {edits : List Edit}
    {reports : List Report} (hPlan : plan i main (fun _ => true) = .ok p)
    (h : mergeFor i p = .ok (edits, reports)) :
    ∃ own others rest, WrittenBy i (constructorsOf p.chain.dropLast) (own :: others) edits ∧
      own.contract = main ∧ own.IsPlanned i (fun _ => true) p ∧
      (∀ r ∈ others, ∃ chain q, (r.contract, chain) ∈ affectedContracts i main p.chain ∧
        r.IsPlanned i (isLeftTo i p.chain chain) q) ∧
      (∀ x ∈ affectedContracts i main p.chain, ∃ q, plan i x.1 (isLeftTo i p.chain x.2) = .ok q ∧
        (q.report.initializers ≠ [] → x.1 ∈ others.map Rewrite.contract)) ∧
      reports = { p.report with isApplied := true } :: rest := by
  obtain ⟨plans, headers, removed, merges, rest, hPlans, hHeaders, hRemoved, hMerges, rfl, rfl⟩ :=
    mergeFor_eq_ok h
  have hSubject : p.contract = main := (initializers_of_plan hPlan).1
  have hNames : (constructorsOf p.chain.dropLast).map (fun x => x.1.name) = convertedNames p.chain :=
    (constructed_eq _).symm
  rw [hSubject] at hPlans
  obtain ⟨ownEdits, otherEdits, hOwn, hOthers, rfl⟩ := List.forall₂_cons_left_iff.mp hMerges
  obtain ⟨own, hMain, rfl, hOwnPlanned, hOwnStarts⟩ := exists_rewrite hPlan rfl rfl rfl hOwn
  have hEach : ∀ q ∈ plans.filter (fun q => q.report.isApplied), ∀ es,
      mergeEdits i (convertedNames p.chain) q = .ok es → ∃ r : Rewrite, r.contract = q.contract ∧
        r.edits = es ∧ (∃ chain q', (r.contract, chain) ∈ affectedContracts i main p.chain ∧
          r.IsPlanned i (isLeftTo i p.chain chain) q') ∧
        StartsWith i (convertedNames p.chain) r.contract r.parameters
          (r.calls.map Initialization.text) r.edits := by
    intro q hq es hes
    obtain ⟨⟨c, chain⟩, hTarget, hOk⟩ :=
      Outcome.exists_of_mem_result hPlans (List.mem_filter.mp hq).1
    obtain ⟨q', hPlan', hContract, hParameters, hCalls, _⟩ := plan_of_affectedPlan hOk
    obtain ⟨r, rfl, hEdits, hPlanned, hStarts⟩ :=
      exists_rewrite hPlan' hContract hParameters hCalls hes
    exact ⟨r, (contract_of_affectedPlan hOk).symm, hEdits, ⟨chain, q', hTarget, hPlanned⟩, hStarts⟩
  obtain ⟨others, hContracts, hEdits, hAll⟩ := exists_rewrites hOthers hEach
  refine ⟨own, others, rest, ⟨⟨headers, removed, ?_, hHeaders, ?_⟩, ?_⟩, hMain, hOwnPlanned,
    fun r hr => (hAll r hr).1, ?_, rfl⟩
  · rw [List.flatMap_cons, List.flatMap_def, hEdits, List.flatten_cons]
  · intro e
    rw [hNames, hRemoved, List.map_cons, List.map_cons, hContracts, hSubject, hMain]
  · intro r hr
    rw [hNames]
    rcases List.mem_cons.mp hr with rfl | hr
    · exact hOwnStarts
    · exact (hAll r hr).2
  · intro x hx
    obtain ⟨q, hq, hOk⟩ := Outcome.exists_result_of_mem hPlans hx
    obtain ⟨q', hPlan', _, _, _, hApplied⟩ := plan_of_affectedPlan hOk
    refine ⟨q', hPlan', fun hCalls => ?_⟩
    rw [hContracts, ← contract_of_affectedPlan hOk]
    refine List.mem_map_of_mem (List.mem_filter.mpr ⟨hq, ?_⟩)
    simpa [hApplied] using hCalls

/-- A merge that is needed is made by the plan for the contract that is asked for, along its chain. -/
theorem mergeFor_of_isNeeded {i : Index} {name : String} {edits : List Edit} {report : Report}
    {others : List Report} (h : merge i name = .ok (edits, report :: others))
    (hNeeded : report.isNeeded = true) :
    ∃ main p bases bindings, i.contract? name = some main ∧ plan i main (fun _ => true) = .ok p ∧
      IsPlanned i main (fun _ => true) p bases main bindings ∧ p.report.isNeeded = true ∧
      mergeFor i p = .ok (edits, report :: others) := by
  obtain ⟨main, hFound, h⟩ := Outcome.bind_eq_ok_iff.mp h
  rw [Index.contract_eq_ok_iff] at hFound
  obtain ⟨p, hPlan, h⟩ := Outcome.bind_eq_ok_iff.mp h
  obtain ⟨bases, bindings, hPlanned⟩ := isPlanned_of_self hPlan (Index.contract?_name hFound)
  split at h
  · rename_i hPlanNeeded
    exact ⟨main, p, bases, bindings, hFound, hPlan, hPlanned, hPlanNeeded, h⟩
  · rename_i hNot
    rw [Outcome.pure_eq_ok_iff, Prod.mk.injEq, List.cons.injEq] at h
    obtain ⟨_, rfl, _⟩ := h
    exact absurd hNeeded hNot

end SolNorm.Construction
