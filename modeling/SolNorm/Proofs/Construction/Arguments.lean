import SolNorm.Constructor.Plan
import SolNorm.Proofs.Ancestry

/-!
How many arguments the constructors along a chain are given. Arguments come from three places: a
contract of the chain gives them, they are parameters of the merged constructor, or there are none
because there are no parameters. In each case there are as many as the constructor has parameters.
-/

namespace SolNorm.Construction

open Outline

/-- The arguments are for a contract of the chain, and as many as its constructor has parameters. -/
def Binding.Complete (chain : List Contract) (b : Binding) : Prop :=
  ∃ base ∈ chain, base.name = b.base ∧ b.arguments.length = (parametersOf base).length

/-- Arguments that are accepted at a place are complete. -/
theorem bindingAt_complete {contract : Contract} {chain : List Contract} {supplier : Contract}
    {site : Invocation × Bool} {b : Binding}
    (h : bindingAt contract chain supplier site = .ok (some b)) : b.Complete chain := by
  unfold bindingAt at h
  split at h
  · rename_i arguments base hArguments hBase
    dsimp only at h
    split at h
    · simp at h
    · rename_i hMissing
      split at h
      · simp at h
      · rename_i hSurplus
        simp only [Except.ok.injEq, Option.some.injEq] at h
        subst h
        have hEnough := List.getElem?_eq_none_iff.mp hMissing
        exact ⟨base, List.mem_of_find?_eq_some hBase, rfl, by simp only; omega⟩
  · simp at h

/-- All arguments that are given along a chain are complete. -/
theorem bindingsOf_complete {contract : Contract} {chain : List Contract} {bindings : List Binding}
    (h : bindingsOf contract chain = .ok bindings) : ∀ b ∈ bindings, b.Complete chain := by
  refine Outcome.foldlM_keeps (fun bs => ∀ b ∈ bs, b.Complete chain) ?_ (by simp) h
  intro place _ before after hBefore hBind
  obtain ⟨found, hFound, hBind⟩ := Outcome.bind_eq_ok_iff.mp hBind
  cases found with
  | none =>
      rw [Outcome.pure_eq_ok_iff] at hBind
      exact hBind ▸ hBefore
  | some b =>
      dsimp only at hBind
      split at hBind
      · rw [Outcome.throw_bind, Outcome.throw_eq_ok_iff] at hBind
        exact hBind.elim
      · rw [Outcome.pure_eq_ok_iff] at hBind
        subst hBind
        intro other hOther
        rcases List.mem_append.mp hOther with hOther | hOther
        · exact hBefore other hOther
        · rw [List.mem_singleton.mp hOther]
          exact bindingAt_complete hFound

/-- Exposing parameters adds one entry for each of them, in their order. -/
theorem map_base_foldl_expose (text : String) (own : List String)
    (parameters : List (String × Variable)) (exposed : List Exposed) :
    (parameters.foldl (expose text own) exposed).map Exposed.base =
      exposed.map Exposed.base ++ parameters.map Prod.fst := by
  induction parameters generalizing exposed with
  | nil => simp
  | cons parameter rest ih =>
      rw [List.foldl_cons, ih]
      simp [expose]

/-- Among contracts with different names, a name comes with as many parameters as its own contract
has. -/
theorem count_names_flatMap {bases : List Contract} {base : Contract}
    (hNames : (bases.map Contract.name).Nodup) (hBase : base ∈ bases) :
    (bases.flatMap fun b => (parametersOf b).map fun _ => b.name).count base.name =
      (parametersOf base).length := by
  induction bases with
  | nil => cases hBase
  | cons first rest ih =>
      rw [List.map_cons, List.nodup_cons] at hNames
      rw [List.flatMap_cons, List.count_append]
      rcases List.mem_cons.mp hBase with rfl | hBase
      · have hRest : (rest.flatMap fun b => (parametersOf b).map fun _ => b.name).count
            base.name = 0 := by
          rw [List.count_eq_zero]
          intro hMem
          obtain ⟨b, hb, hName⟩ := List.mem_flatMap.mp hMem
          obtain ⟨_, _, hSame⟩ := List.mem_map.mp hName
          exact hNames.1 (List.mem_map.mpr ⟨b, hb, hSame⟩)
        rw [hRest, List.map_const', List.count_replicate_self, Nat.add_zero]
      · have hOther : first.name ≠ base.name := by
          intro hSame
          exact hNames.1 (List.mem_map.mpr ⟨base, hBase, hSame.symm⟩)
        rw [ih hNames.2 hBase, List.map_const', List.count_replicate]
        simp [hOther]

/-- A base that is initialized and that nobody gives arguments for has all its parameters exposed. -/
theorem length_filter_exposedParameters {text : String} {contract : Contract}
    {bases : List Contract} {bindings : List Binding} {isInitialized : Contract → Bool}
    {base : Contract} (hNames : (bases.map Contract.name).Nodup) (hBase : base ∈ bases)
    (hOpen : (isInitialized base && (binding? bindings base.name).isNone) = true) :
    ((exposedParameters text contract bases bindings isInitialized).filter
      fun x => x.base == base.name).length = (parametersOf base).length := by
  have hTags := map_base_foldl_expose text ((parametersOf contract).filterMap Variable.name)
    ((bases.filter fun b => isInitialized b && (binding? bindings b.name).isNone).flatMap
      fun b => (parametersOf b).map fun v => (b.name, v)) []
  have hSome : base ∈ bases.filter fun b => isInitialized b && (binding? bindings b.name).isNone :=
    List.mem_filter.mpr ⟨hBase, hOpen⟩
  have hSub := List.filter_sublist (l := bases)
    (p := fun b => isInitialized b && (binding? bindings b.name).isNone)
  have hCount := count_names_flatMap (hNames.sublist (hSub.map _)) hSome
  simp only [List.map_nil, List.nil_append, List.map_flatMap, List.map_map] at hTags
  rw [← List.countP_eq_length_filter, ← hCount, List.count]
  change List.countP ((· == base.name) ∘ Exposed.base) _ = _
  rw [← List.countP_map, exposedParameters, hTags]
  rfl

/-- Going through contracts one by one adds an entry for each of them, whose values are found from
the entries before it. -/
theorem foldl_addSupply (text : String) (contract : Contract) (bindings : List Binding)
    (exposed : List Exposed) (contracts : List Contract) (supplies : List Supply) :
    ∃ added, contracts.foldl (addSupply text contract bindings exposed) supplies =
        supplies ++ added ∧
      List.Forall₂ (fun (c : Contract) (s : Supply) => s.contract = c.name ∧ ∃ before,
        s.values = argumentsFor text contract bindings exposed before c) contracts added := by
  induction contracts generalizing supplies with
  | nil => exact ⟨[], by simp, .nil⟩
  | cons current rest ih =>
      obtain ⟨added, hAdded, hEach⟩ := ih (addSupply text contract bindings exposed supplies current)
      rw [List.foldl_cons, hAdded, addSupply, List.append_assoc]
      exact ⟨_, rfl, .cons ⟨rfl, supplies, rfl⟩ hEach⟩

/-- What a contract of a chain is given is found by its name. -/
theorem find?_suppliesOf (text : String) (contract : Contract) {chain : List Contract}
    (bindings : List Binding) (exposed : List Exposed) {c : Contract}
    (hNames : (chain.map Contract.name).Nodup) (hc : c ∈ chain) :
    ∃ s before, (suppliesOf text contract chain bindings exposed).find?
        (fun s => s.contract == c.name) = some s ∧
      s.values = argumentsFor text contract bindings exposed before c := by
  obtain ⟨added, hAdded, hEach⟩ :=
    foldl_addSupply text contract bindings exposed chain.reverse []
  rw [suppliesOf, hAdded, List.nil_append]
  obtain ⟨s, hs, hName, _⟩ := Outcome.exists_right_of_mem hEach (List.mem_reverse.mpr hc)
  have hSome : (added.find? fun s => s.contract == c.name).isSome := by
    rw [List.find?_isSome]
    exact ⟨s, hs, by simp [hName]⟩
  obtain ⟨found, hFound⟩ := Option.isSome_iff_exists.mp hSome
  have hFoundName : found.contract = c.name := by simpa using List.find?_some hFound
  obtain ⟨d, hd, hdName, before, hValues⟩ :=
    Outcome.exists_left_of_mem hEach (List.mem_of_find?_eq_some hFound)
  have hSame : d = c :=
    List.inj_on_of_nodup_map hNames (List.mem_reverse.mp hd) hc (hdName.symm.trans hFoundName)
  exact ⟨found, before, hFound, hSame ▸ hValues⟩

/-- The constructor of a base that is initialized is given as many arguments as it has parameters. -/
theorem length_argumentsFor (text : String) {contract derived : Contract} {bases : List Contract}
    {bindings : List Binding} {isInitialized : Contract → Bool} (before : List Supply)
    {base : Contract}
    (hNames : ((bases ++ [derived]).map Contract.name).Nodup)
    (hComplete : ∀ b ∈ bindings, b.Complete (bases ++ [derived]))
    (hBase : base ∈ bases) (hOther : base.name ≠ contract.name)
    (hInit : isInitialized base = true) :
    (argumentsFor text contract bindings
      (exposedParameters text contract bases bindings isInitialized) before base).length =
        (parametersOf base).length := by
  have hMem : base ∈ bases ++ [derived] := List.mem_append_left _ hBase
  unfold argumentsFor
  rw [if_neg (by simpa using hOther)]
  split
  · rename_i binding hBinding
    obtain ⟨d, hd, hdName, hLength⟩ := hComplete binding (List.mem_of_find?_eq_some hBinding)
    have hFor : binding.base = base.name := by simpa using List.find?_some hBinding
    have hSame : d = base := List.inj_on_of_nodup_map hNames hd hMem (hdName.trans hFor)
    rw [List.length_map, hLength, hSame]
  · rename_i hNone
    rw [List.length_map]
    refine length_filter_exposedParameters (List.Nodup.sublist ?_ hNames) hBase ?_
    · exact (List.sublist_append_left bases [derived]).map _
    · simp [hInit, hNone]

end SolNorm.Construction
