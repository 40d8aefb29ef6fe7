import SolNorm.Proofs.Calls.Binding
import SolNorm.Proofs.Selector.Overrides

/-!
Two views of the functions that a contract offers. A call looks along the contracts from the most
derived one down and takes the first definition of each list of types. Functions are told apart in
families, which are collected from the most basic contract up and of which the last definition counts.
The two agree as long as no contract declares the same function twice.
-/

namespace SolNorm

open Outline

/-- No two ordinary functions of a contract have the same name and the same parameter types. -/
def Outline.Contract.DeclaresOnce (c : Contract) : Prop :=
  c.functions.Pairwise fun f g => f.kind = .function → g.kind = .function →
    f.name = g.name → f.parameterTypes ≠ g.parameterTypes

/-- The functions of a name that a contract offers to the outside, as families. -/
structure Offers (chain : List Contract) (name : String) (families : List Family) : Prop where
  /-- The definitions that count are those that a call sees and that are visible from outside, each
  in one family. -/
  effective : (families.map Family.effective).Perm
    ((visibleOverloads chain name).filter FunctionRef.isExposed)
  /-- A family has the parameter types of the definition that counts. -/
  signature : ∀ f ∈ families, f.name = name ∧ f.types = f.effective.function.parameterTypes
  /-- No list of types comes twice. -/
  distinct : (families.map Family.types).Nodup
  /-- A family has all definitions of its name and types along the contracts. -/
  complete : ∀ f ∈ families, ∀ d, d ∈ f.definitions ↔ d.contract ∈ chain ∧
    d.function ∈ d.contract.functions ∧ d.function.kind = .function ∧
    d.function.name = f.name ∧ d.function.parameterTypes = f.types
  /-- The definitions come from the most basic contract to the most derived, one from each. -/
  ordered : ∀ f ∈ families, (f.definitions.map FunctionRef.contract).Sublist chain

section

variable {chain : List Contract} {name : String} {f : Family} {d : FunctionRef}

/-- The definition that counts is the last one. -/
theorem Family.getLast?_definitions (f : Family) : f.definitions.getLast? = some f.effective :=
  List.getLast?_cons

theorem ordinaryFunctions_append (xs ys : List Contract) :
    ordinaryFunctions (xs ++ ys) = ordinaryFunctions xs ++ ordinaryFunctions ys :=
  List.flatMap_append

theorem ordinaryFunctions_cons (c : Contract) (rest : List Contract) :
    ordinaryFunctions (c :: rest) = ordinaryFunctions [c] ++ ordinaryFunctions rest :=
  ordinaryFunctions_append [c] rest

/-- A contract that declares its functions once has at most one in a family. -/
theorem filter_holds_cases {c : Contract} (h : c.DeclaresOnce) (f : Family) :
    (ordinaryFunctions [c]).filter f.holds = [] ∨
      ∃ d, (ordinaryFunctions [c]).filter f.holds = [d] ∧ d.contract = c := by
  have hApart : (ordinaryFunctions [c]).Pairwise fun d e =>
      ¬ (f.holds d = true ∧ f.holds e = true) := by
    simp only [ordinaryFunctions, List.flatMap_cons, List.flatMap_nil, List.append_nil,
      List.pairwise_map, List.pairwise_filter, beq_iff_eq]
    apply h.imp
    intro x y hNe hx hy hBoth
    have hSignature := (Family.holds_iff.mp hBoth.1).symm.trans (Family.holds_iff.mp hBoth.2)
    obtain ⟨hName, hTypes⟩ := Prod.mk.inj hSignature
    exact hNe hx hy hName hTypes
  have hLeft := hApart.filter f.holds
  have hMem (d : FunctionRef) (hd : d ∈ (ordinaryFunctions [c]).filter f.holds) :
      d.contract = c ∧ f.holds d = true := by
    rw [List.mem_filter, mem_ordinaryFunctions_iff, List.mem_singleton] at hd
    exact ⟨hd.1.1, hd.2⟩
  cases hFilter : (ordinaryFunctions [c]).filter f.holds with
  | nil => exact .inl rfl
  | cons d others =>
      rw [hFilter] at hLeft hMem
      cases others with
      | nil => exact .inr ⟨d, rfl, (hMem d List.mem_cons_self).1⟩
      | cons e rest =>
          exact absurd ⟨(hMem d (by simp)).2, (hMem e (by simp)).2⟩
            (List.rel_of_pairwise_cons hLeft List.mem_cons_self)

/-- Within one contract it makes no difference from which end a definition of a family is looked for. -/
theorem find?_reverse_ordinaryFunctions (hOnce : ∀ c ∈ chain, c.DeclaresOnce) (f : Family) :
    (ordinaryFunctions chain.reverse).find? f.holds =
      (ordinaryFunctions chain).reverse.find? f.holds := by
  induction chain with
  | nil => rfl
  | cons c rest ih =>
      obtain ⟨hHere, hRest⟩ := List.forall_mem_cons.mp hOnce
      have hOne : (ordinaryFunctions [c]).reverse.find? f.holds =
          (ordinaryFunctions [c]).find? f.holds := by
        rw [← List.head?_filter, ← List.head?_filter, List.filter_reverse]
        rcases filter_holds_cases hHere f with hNone | ⟨d, hOne, _⟩
        · simp [hNone]
        · simp [hOne]
      rw [List.reverse_cons, ordinaryFunctions_append, List.find?_append, ih hRest,
        ordinaryFunctions_cons c rest, List.reverse_append, List.find?_append, hOne]

/-- The last definition of a family is the first that is met from the most derived contract down. -/
theorem find?_holds_eq_effective (hOnce : ∀ c ∈ chain, c.DeclaresOnce) (hf : f ∈ familiesOf chain) :
    (ordinaryFunctions chain.reverse).find? f.holds = some f.effective := by
  rw [find?_reverse_ordinaryFunctions hOnce, ← List.getLast?_filter, ← definitions_eq_filter hf]
  exact f.getLast?_definitions

/-- The definitions of a family come from different contracts, in the order of the chain. -/
theorem map_contract_definitions_sublist (hOnce : ∀ c ∈ chain, c.DeclaresOnce)
    (hf : f ∈ familiesOf chain) : (f.definitions.map FunctionRef.contract).Sublist chain := by
  rw [definitions_eq_filter hf]
  clear hf
  induction chain with
  | nil => exact List.nil_sublist _
  | cons c rest ih =>
      obtain ⟨hHere, hRest⟩ := List.forall_mem_cons.mp hOnce
      have hOne :
          (((ordinaryFunctions [c]).filter f.holds).map FunctionRef.contract).Sublist [c] := by
        rcases filter_holds_cases hHere f with hNone | ⟨d, hOne, hOwner⟩
        · simp [hNone]
        · simp [hOne, hOwner]
      rw [ordinaryFunctions_cons, List.filter_append, List.map_append]
      exact hOne.append (ih hRest)

/-- What a call sees of a name are the definitions of families that count. -/
theorem mem_visibleOverloads_iff_effective (hOnce : ∀ c ∈ chain, c.DeclaresOnce) :
    d ∈ visibleOverloads chain name ↔ ∃ f ∈ familiesOf chain, f.name = name ∧ f.effective = d := by
  -- The search for the name and the types of a definition is the search for its family.
  have hTest {f : Family} (hName : f.name = name) (hTypes : f.types = d.function.parameterTypes) :
      (fun s : FunctionRef => s.function.name == name &&
        s.function.parameterTypes == d.function.parameterTypes) = f.holds := by
    funext s
    simp only [Family.holds, hName, hTypes, Bool.beq_comm]
  rw [mem_visibleOverloads_iff]
  constructor
  · intro hFind
    have hMem : d ∈ ordinaryFunctions chain := by
      have hListed := mem_ordinaryFunctions_iff.mp (List.mem_of_find?_eq_some hFind)
      exact mem_ordinaryFunctions_iff.mpr ⟨List.mem_reverse.mp hListed.1, hListed.2⟩
    obtain ⟨f, hf, hd⟩ := exists_family_of_mem hMem
    obtain ⟨hName, hTypes⟩ := (familiesOf_spec chain).coherent f hf d hd
    have hSame : d.function.name = name := by
      simpa using List.find?_some hFind
    have hFamily : f.name = name := hName.symm.trans hSame
    rw [hTest hFamily hTypes.symm, find?_holds_eq_effective hOnce hf, Option.some.injEq] at hFind
    exact ⟨f, hf, hFamily, hFind⟩
  · rintro ⟨f, hf, hName, rfl⟩
    rw [hTest hName (effective_key hf).2.symm]
    exact find?_holds_eq_effective hOnce hf

/-- The families that are offered under a name are the exposed ones of that name. -/
theorem mem_lookup_groupsOf_iff :
    f ∈ ((groupsOf chain).lookup name).getD [] ↔
      f ∈ familiesOf chain ∧ f.effective.isExposed = true ∧ f.name = name := by
  rw [groupsOf, getD_lookup_groupByKey, List.mem_filter, List.mem_filter, beq_iff_eq, and_assoc]

/-- The families of a name that are found in the groups are what the contracts offer. -/
theorem offers_groupsOf (hOnce : ∀ c ∈ chain, c.DeclaresOnce) (name : String) :
    Offers chain name (((groupsOf chain).lookup name).getD []) := by
  have hNodup : (((groupsOf chain).lookup name).getD []).Nodup := by
    rw [groupsOf, getD_lookup_groupByKey]
    exact ((familiesOf_spec chain).distinct.of_map.filter _).filter _
  constructor
  · apply (List.perm_ext_iff_of_nodup ?_ ?_).mpr
    · intro d
      rw [List.mem_filter, mem_visibleOverloads_iff_effective hOnce, List.mem_map]
      simp only [mem_lookup_groupsOf_iff]
      constructor
      · rintro ⟨f, ⟨hf, hExposed, hName⟩, rfl⟩
        exact ⟨⟨f, hf, hName, rfl⟩, hExposed⟩
      · rintro ⟨⟨f, hf, hName, rfl⟩, hExposed⟩
        exact ⟨f, ⟨hf, hExposed, hName⟩, rfl⟩
    · apply hNodup.map_on
      intro f hf g hg hSame
      have hfKey := effective_key (mem_lookup_groupsOf_iff.mp hf).1
      have hgKey := effective_key (mem_lookup_groupsOf_iff.mp hg).1
      rw [hSame] at hfKey
      exact family_unique (mem_lookup_groupsOf_iff.mp hf).1 (mem_lookup_groupsOf_iff.mp hg).1
        (hfKey.1.symm.trans hgKey.1) (hfKey.2.symm.trans hgKey.2)
    · exact (nodup_visibleOverloads chain name).filter _
  · intro f hf
    obtain ⟨hFamily, _, hName⟩ := mem_lookup_groupsOf_iff.mp hf
    exact ⟨hName, (effective_key hFamily).2.symm⟩
  · apply hNodup.map_on
    intro f hf g hg hTypes
    obtain ⟨hfFamily, _, hfName⟩ := mem_lookup_groupsOf_iff.mp hf
    obtain ⟨hgFamily, _, hgName⟩ := mem_lookup_groupsOf_iff.mp hg
    exact family_unique hfFamily hgFamily (hfName.trans hgName.symm) hTypes
  · intro f hf d
    rw [mem_definitions_iff (mem_lookup_groupsOf_iff.mp hf).1, mem_definitionsOf_iff,
      mem_ordinaryFunctions_iff]
    simp only [FunctionRef.key, and_assoc]
  · intro f hf
    exact map_contract_definitions_sublist hOnce (mem_lookup_groupsOf_iff.mp hf).1

/-- As long as no contract of the source declares the same function twice, telling functions apart and
resolving calls agree on what a contract offers. For every name, the families that are told apart are
those of the functions that a call sees and that are visible from outside. -/
theorem signatureGroups_offers {i : Index} {c : Contract} (hOnce : ∀ a ∈ i.contracts, a.DeclaresOnce)
    (hChain : i.linearize c.name = .ok chain) :
    ∃ groups, i.signatureGroups c = .ok groups ∧ (groups.map Prod.fst).Nodup ∧
      ∀ name, Offers chain name ((groups.lookup name).getD []) := by
  refine ⟨groupsOf chain, signatureGroups_eq_ok_iff.mpr ⟨chain, hChain, rfl⟩,
    nodup_keys_groupByKey _ _, fun name => offers_groupsOf (fun a ha => hOnce a ?_) name⟩
  exact Index.mem_contracts_of_contract? (Index.contract?_of_mem_linearize hChain ha)

end

/-- A contract overrides two functions of its base, one of them with less visibility, and adds one. -/
def narrowed : Index :=
  { (default : Index) with
    unit := ⟨[Collision.contractOf "A" []
        [Collision.overload "f" "uint256" 10, Collision.overload "f" "bool" 20],
      Collision.contractOf "B" ["A"]
        [Collision.overload "f" "uint256" 30,
          { Collision.overload "f" "bool" 40 with visibility := some .internally },
          Collision.overload "f" "address" 50]], default⟩ }

/-- A call in the derived contract sees three functions, of which two are offered to the outside, one of
them with both its definitions. -/
theorem narrowed_offers :
    ∃ c chain groups, (∀ a ∈ narrowed.contracts, a.DeclaresOnce) ∧
      narrowed.contract? "B" = some c ∧ narrowed.linearize c.name = .ok chain ∧
      (visibleOverloads chain "f").map FunctionRef.key =
        [⟨"B", "f", ["uint256"]⟩, ⟨"B", "f", ["bool"]⟩, ⟨"B", "f", ["address"]⟩] ∧
      narrowed.signatureGroups c = .ok groups ∧
      ((groups.lookup "f").getD []).map (fun f => f.definitions.map FunctionRef.key) =
        [[⟨"A", "f", ["uint256"]⟩, ⟨"B", "f", ["uint256"]⟩], [⟨"B", "f", ["address"]⟩]] ∧
      Offers chain "f" ((groups.lookup "f").getD []) ∧
      Offers chain "g" ((groups.lookup "g").getD []) := by
  have hOnce : ∀ a ∈ narrowed.contracts, a.DeclaresOnce := by
    unfold Contract.DeclaresOnce
    decide +kernel
  have hShown : (do
      let c ← narrowed.contract "B"
      let chain ← narrowed.linearize c.name
      let groups ← narrowed.signatureGroups c
      return ((visibleOverloads chain "f").map FunctionRef.key,
        ((groups.lookup "f").getD []).map fun f : Family => f.definitions.map FunctionRef.key)) =
      .ok ([⟨"B", "f", ["uint256"]⟩, ⟨"B", "f", ["bool"]⟩, ⟨"B", "f", ["address"]⟩],
        [[⟨"A", "f", ["uint256"]⟩, ⟨"B", "f", ["uint256"]⟩], [⟨"B", "f", ["address"]⟩]]) := by
    decide +kernel
  obtain ⟨c, hFound, hShown⟩ := Outcome.bind_eq_ok_iff.mp hShown
  obtain ⟨chain, hChain, hShown⟩ := Outcome.bind_eq_ok_iff.mp hShown
  obtain ⟨groups, hGroups, hShown⟩ := Outcome.bind_eq_ok_iff.mp hShown
  rw [Outcome.pure_eq_ok_iff, Prod.mk.injEq] at hShown
  obtain ⟨groups', hSame, _, hOffers⟩ := signatureGroups_offers hOnce hChain
  obtain rfl : groups = groups' := Except.ok.inj (hGroups.symm.trans hSame)
  exact ⟨c, chain, groups, hOnce, Index.contract_eq_ok_iff.mp hFound, hChain, hShown.1, hGroups,
    hShown.2, hOffers "f", hOffers "g"⟩

end SolNorm
