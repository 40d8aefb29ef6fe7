import SolNorm.Proofs.Linearization.Soundness
import SolNorm.Proofs.Selector.Separation

/-!
Definitions that override each other, once functions have been told apart. A new name is given to all
definitions that the contract sees in which it is chosen. Another contract may share only some of
them: it inherits one of the renamed definitions and overrides it, while its own functions need not be
told apart. In no other way do definitions of one name and of the same types come to have different
names.
-/

namespace SolNorm

open Outline

/-- The definitions of a name and of some types along some contracts. -/
def definitionsOf (chain : List Contract) (name : String) (types : List String) :
    List FunctionRef :=
  (ordinaryFunctions chain).filter fun d =>
    d.function.name == name && d.function.parameterTypes == types

/-- The definitions have one new name, or none of them has a new name. -/
def Renames.Shared (r : Renames) (definitions : List FunctionRef) : Prop :=
  (∃ n, ∀ d ∈ definitions, r.find? d.key = some n) ∨ ∀ d ∈ definitions, r.find? d.key = none

theorem mem_definitionsOf_iff {chain : List Contract} {name : String} {types : List String}
    {d : FunctionRef} :
    d ∈ definitionsOf chain name types ↔
      d ∈ ordinaryFunctions chain ∧ d.key.name = name ∧ d.key.types = types := by
  simp [definitionsOf, FunctionRef.key]

/-- Every function along a chain is in a family. -/
theorem exists_family_of_mem {chain : List Contract} {d : FunctionRef}
    (hd : d ∈ ordinaryFunctions chain) : ∃ f ∈ familiesOf chain, d ∈ f.definitions := by
  have hFound := (foldl_addToFamilies (ordinaryFunctions chain)).2.1 d hd
  obtain ⟨f, hf, hSignature⟩ := List.mem_map.mp hFound
  refine ⟨f, hf, ?_⟩
  rw [definitions_eq_filter hf, List.mem_filter]
  exact ⟨hd, Family.holds_iff.mpr hSignature⟩

/-- A family has all definitions of its name and types along its chain. -/
theorem mem_definitions_iff {chain : List Contract} {f : Family} (hf : f ∈ familiesOf chain)
    {d : FunctionRef} : d ∈ f.definitions ↔ d ∈ definitionsOf chain f.name f.types := by
  rw [definitions_eq_filter hf, List.mem_filter, mem_definitionsOf_iff, Family.holds_iff, eq_comm]
  exact and_congr_right fun _ => Prod.mk_inj

namespace Collision

variable {hash : String → Selector} {i : Index}

/-- A family that is seen along a chain cannot be told from another one of its name. -/
def Collides (hash : String → Selector) (i : Index) (chain : List Contract) (f : Family) : Prop :=
  ∃ group ∈ groupsOf chain, f ∈ group.2 ∧ ∃ g ∈ group.2, f ≠ g ∧
    outsideSelector hash i f.name f.types = outsideSelector hash i g.name g.types

theorem Collides.mem_familiesOf {chain : List Contract} {f : Family}
    (h : Collides hash i chain f) : f ∈ familiesOf chain := by
  obtain ⟨group, hGroup, hf, _⟩ := h
  exact (mem_groupsOf hGroup hf).1

/-- No family collides with itself. -/
theorem nodup_of_mem_collisions {chain : List Contract} {group : String × List Family}
    {set : Selector × List Family} (hGroup : group ∈ groupsOf chain)
    (hSet : set ∈ collisions hash i group.2) : set.2.Nodup := by
  rw [eq_filter_of_mem_groupByKey _ (List.mem_filter.mp hSet).1,
    eq_filter_of_mem_groupByKey Family.name hGroup]
  exact (List.Nodup.of_map _ (familiesOf_spec chain).distinct).filter _ |>.filter _ |>.filter _

/-- The families of a set that are told apart collide. -/
theorem collides_of_mem_collisions {chain : List Contract} {group : String × List Family}
    {set : Selector × List Family} {f : Family} (hGroup : group ∈ groupsOf chain)
    (hSet : set ∈ collisions hash i group.2) (hf : f ∈ set.2) : Collides hash i chain f := by
  obtain ⟨hKey, hLength⟩ := List.mem_filter.mp hSet
  have hFilter := eq_filter_of_mem_groupByKey _ hKey
  have hNodup := nodup_of_mem_collisions hGroup hSet
  -- A set without repetitions that has two members has one besides the family.
  have hOther : ∃ g ∈ set.2, g ≠ f := by
    by_contra hNone
    push Not at hNone
    have hOne : set.2.Subperm [f] :=
      List.subperm_of_subset hNodup fun g hg => by simp [hNone g hg]
    have hShort := hOne.length_le
    rw [decide_eq_true_eq] at hLength
    simp only [List.length_singleton] at hShort
    omega
  obtain ⟨g, hg, hNe⟩ := hOther
  have hSelector (x : Family) (hx : x ∈ set.2) :
      x ∈ group.2 ∧ outsideSelector hash i x.name x.types = set.1 := by
    rw [hFilter, List.mem_filter] at hx
    exact ⟨hx.1, eq_of_beq hx.2⟩
  refine ⟨group, hGroup, (hSelector f hf).1, g, (hSelector g hg).1, hNe.symm, ?_⟩
  rw [(hSelector f hf).2, (hSelector g hg).2]

/-- The run over one set of families: names are given to families of the set only. -/
theorem separate_keeps {s s' : State} {members : List Family} (P : Renames → Prop)
    (hStep : ∀ f ∈ members, ∀ r r' name, P r → renameFamily r name f = .ok r' → P r')
    (hStart : P s.renames) (hRun : separate hash i s members = .ok s') : P s'.renames := by
  obtain ⟨middle, hPassed, hRenamed⟩ := Outcome.bind_eq_ok_iff.mp hRun
  have hMiddle : P middle.renames := by
    apply Outcome.foldlM_keeps (fun t => P t.renames) _ hStart hPassed
    intro f hf t t' ht hOk
    rcases passOn_eq_ok hOk with ⟨name, r, _, hRename, rfl⟩ | ⟨_, rfl⟩
    · exact hStep f hf _ _ _ ht hRename
    · exact ht
  apply Outcome.foldlM_keeps (fun t => P t.renames) _ hMiddle hRenamed
  intro f hf t t' ht hOk
  obtain ⟨name, r, _, _, _, hRename, rfl⟩ := renameFresh_eq_ok hOk
  exact hStep f (List.mem_of_mem_filter (List.mem_of_mem_filter hf)) _ _ _ ht hRename

/-- The run over one contract: names are given to colliding families along its chain only. -/
theorem separateContract_keeps {m m' : Marking} {c : Contract} (P : Renames → Prop)
    (hStep : ∀ chain, i.linearize c.name = .ok chain → ∀ f, Collides hash i chain f →
      ∀ r r' name, P r → renameFamily r name f = .ok r' → P r')
    (hStart : P m.renames) (hRun : separateContract hash i m c = .ok m') : P m'.renames := by
  obtain ⟨groups, hGroups, hRun⟩ := Outcome.bind_eq_ok_iff.mp hRun
  obtain ⟨names, _, hRun⟩ := Outcome.bind_eq_ok_iff.mp hRun
  obtain ⟨⟨s, entries⟩, hSets, rfl⟩ := Outcome.bind_pure_eq_ok_iff.mp hRun
  obtain ⟨chain, hChain, rfl⟩ := signatureGroups_eq_ok_iff.mp hGroups
  apply Outcome.foldlM_keeps (fun found : State × List MarkedFunction => P found.1.renames) _
    hStart hSets
  intro set hSet found found' hFound hOne
  obtain ⟨t, hSeparate, rfl⟩ := Outcome.bind_pure_eq_ok_iff.mp hOne
  obtain ⟨group, hGroup, hMem⟩ := List.mem_flatMap.mp hSet
  apply separate_keeps P _ hFound hSeparate
  intro f hf
  exact hStep chain hChain f (collides_of_mem_collisions hGroup hMem hf)

/-- The run over all contracts: what every renaming of a colliding family keeps holds of the table in
the end. -/
theorem separateAll_keeps {m : Marking} (P : Renames → Prop) (hStart : P [])
    (hStep : ∀ c ∈ i.contracts, ∀ chain, i.linearize c.name = .ok chain → ∀ f,
      Collides hash i chain f → ∀ r r' name, P r → renameFamily r name f = .ok r' → P r')
    (hRun : separateAll hash i = .ok m) : P m.renames := by
  rw [separateAll_eq, Outcome.bind_eq_ok_iff] at hRun
  obtain ⟨order, hOrder, hRun⟩ := hRun
  apply Outcome.foldlM_keeps (fun m : Marking => P m.renames) _ hStart hRun
  intro c hc m m' hm hOk
  exact separateContract_keeps P (hStep c ((mem_visitOrder_iff hOrder).mp hc)) hm hOk

/-- The functions of a name and of some types cannot be told from others along a chain. -/
def CollidesIn (hash : String → Selector) (i : Index) (chain : List Contract) (name : String)
    (types : List String) : Prop :=
  ∃ f, Collides hash i chain f ∧ f.name = name ∧ f.types = types

/-- The second contract divides the definitions that the first one sees. Its own functions of the
signature have to be told apart, and it does not inherit the first contract. It inherits a definition
with a new name, and not another one, which has not got that name. -/
def Divides (hash : String → Selector) (i : Index) (r : Renames) (c p : Contract) (name : String)
    (types : List String) : Prop :=
  ∃ chain around, i.linearize c.name = .ok chain ∧ i.linearize p.name = .ok around ∧
    c.name ∉ around.map Contract.name ∧ CollidesIn hash i around name types ∧
    ∃ d ∈ definitionsOf chain name types, ∃ e ∈ definitionsOf chain name types, ∃ n,
      d.contract ∈ around ∧ r.find? d.key = some n ∧ e.contract ∉ around ∧ r.find? e.key ≠ some n

/-- The contract that has named some of the definitions last. All that it sees of them have the name
that it gave. -/
def NamedLast (hash : String → Selector) (i : Index) (definitions : List FunctionRef)
    (name : String) (types : List String) (r : Renames) : Prop :=
  (∀ d ∈ definitions, r.find? d.key = none) ∨
    ∃ p ∈ i.contracts, ∃ around, i.linearize p.name = .ok around ∧
      CollidesIn hash i around name types ∧ (∃ d ∈ definitions, d.contract ∈ around) ∧
      ∃ n, ∀ d ∈ definitions, d.contract ∈ around → r.find? d.key = some n

/-- A definition along one chain is in a family along another one exactly when its contract is in the
other chain too. -/
theorem mem_keys_iff {a b : String} {chain around : List Contract} {f : Family} {d : FunctionRef}
    (hChain : i.linearize a = .ok chain) (hAround : i.linearize b = .ok around)
    (hf : f ∈ familiesOf around) (hd : d ∈ definitionsOf chain f.name f.types) :
    d.key ∈ f.definitions.map FunctionRef.key ↔ d.contract ∈ around := by
  obtain ⟨hKnown, hSignature⟩ := mem_definitionsOf_iff.mp hd
  obtain ⟨hContract, hFunction⟩ := mem_ordinaryFunctions_iff.mp hKnown
  constructor
  · intro hMem
    obtain ⟨e, he, hKey⟩ := List.mem_map.mp hMem
    have hOther := (mem_ordinaryFunctions_iff.mp ((familiesOf_spec around).known f hf e he)).1
    have hSame : e.contract = d.contract :=
      Index.eq_of_name_eq (Index.contract?_of_mem_linearize hAround hOther)
        (Index.contract?_of_mem_linearize hChain hContract) (congrArg FunctionKey.contract hKey)
    exact hSame ▸ hOther
  · intro hIn
    apply List.mem_map_of_mem
    rw [mem_definitions_iff hf, mem_definitionsOf_iff]
    exact ⟨mem_ordinaryFunctions_iff.mpr ⟨hIn, hFunction⟩, hSignature⟩

/-- Only the names of the definitions themselves count. -/
theorem NamedLast.congr {definitions : List FunctionRef} {name : String} {types : List String}
    {r r' : Renames} (h : NamedLast hash i definitions name types r)
    (hSame : ∀ d ∈ definitions, r'.find? d.key = r.find? d.key) :
    NamedLast hash i definitions name types r' := by
  rcases h with hNone | ⟨p, hp, around, hAround, hCollides, hSome, n, hNamed⟩
  · exact .inl fun d hd => (hSame d hd).trans (hNone d hd)
  · refine .inr ⟨p, hp, around, hAround, hCollides, hSome, n, ?_⟩
    intro d hd hIn
    rw [hSame d hd, hNamed d hd hIn]

/-- The step that names a colliding family. -/
theorem NamedLast.renameFamily {a new name : String} {types : List String} {p : Contract}
    {chain around : List Contract} {f : Family} {r r' : Renames}
    (h : NamedLast hash i (definitionsOf chain name types) name types r)
    (hChain : i.linearize a = .ok chain) (hp : p ∈ i.contracts)
    (hAround : i.linearize p.name = .ok around) (hf : Collides hash i around f)
    (hRun : renameFamily r new f = .ok r') :
    NamedLast hash i (definitionsOf chain name types) name types r' := by
  have hFamily := hf.mem_familiesOf
  by_cases hSignature : f.name = name ∧ f.types = types
  · obtain ⟨rfl, rfl⟩ := hSignature
    have hFind (d : FunctionRef) (hd : d ∈ definitionsOf chain f.name f.types) :
        r'.find? d.key = if d.contract ∈ around then some new else r.find? d.key := by
      rw [find?_of_renameFamily hRun]
      simp only [mem_keys_iff hChain hAround hFamily hd]
    by_cases hSome : ∃ d ∈ definitionsOf chain f.name f.types, d.contract ∈ around
    · refine .inr ⟨p, hp, around, hAround, ⟨f, hf, rfl, rfl⟩, hSome, new, ?_⟩
      intro d hd hIn
      rw [hFind d hd, if_pos hIn]
    · apply h.congr
      intro d hd
      rw [hFind d hd, if_neg fun hIn => hSome ⟨d, hd, hIn⟩]
  · -- The keys of the family have another name or other types.
    apply h.congr
    intro d hd
    obtain ⟨_, hName, hTypes⟩ := mem_definitionsOf_iff.mp hd
    rw [find?_of_renameFamily hRun, if_neg]
    intro hMem
    obtain ⟨e, he, hKey⟩ := List.mem_map.mp hMem
    obtain ⟨hfName, hfTypes⟩ := ((familiesOf_spec around).coherent f hFamily).key he
    rw [hKey] at hfName hfTypes
    exact hSignature ⟨hfName.symm.trans hName, hfTypes.symm.trans hTypes⟩

/-- A contract that inherits another one sees all definitions that the other one sees. -/
theorem mem_of_inherits {a : String} {c : Contract} {chain around : List Contract}
    {d : FunctionRef} {name : String} {types : List String} (hChain : i.linearize c.name = .ok chain)
    (hAround : i.linearize a = .ok around) (hInherits : c.name ∈ around.map Contract.name)
    (hd : d ∈ definitionsOf chain name types) : d.contract ∈ around := by
  obtain ⟨x, hx, hName⟩ := List.mem_map.mp hInherits
  obtain ⟨own, hOwn, hSub⟩ := Index.linearize_of_mem hAround hx
  rw [hName, hChain, Except.ok.injEq] at hOwn
  apply hSub.subset
  rw [← hOwn]
  exact (mem_ordinaryFunctions_iff.mp (mem_definitionsOf_iff.mp hd).1).1

/-- Definitions of one name and of the same types along the chain of a contract share one new name,
or none of them is renamed, unless another contract divides them. That contract does not inherit this
one, and its own functions have to be told apart. -/
theorem shared_iff_not_divided {m : Marking} {c : Contract} (hRun : separateAll hash i = .ok m)
    (hc : c ∈ i.contracts) :
    ∃ chain, i.linearize c.name = .ok chain ∧ ∀ name types,
      m.renames.Shared (definitionsOf chain name types) ↔
        ¬ ∃ p ∈ i.contracts, Divides hash i m.renames c p name types := by
  obtain ⟨groups, hGroups, _⟩ := (separateAll_eq_ok hRun).2 c hc
  obtain ⟨chain, hChain, _⟩ := signatureGroups_eq_ok_iff.mp hGroups
  refine ⟨chain, hChain, fun name types => ?_⟩
  constructor
  · rintro hShared ⟨p, _, own, around, hOwn, _, _, _, d, hd, e, he, n, _, hNamed, _, hOther⟩
    rw [hChain, Except.ok.injEq] at hOwn
    subst hOwn
    rcases hShared with ⟨new, hAll⟩ | hNone
    · rw [hAll d hd] at hNamed
      exact hOther ((hAll e he).trans hNamed)
    · rw [hNone d hd] at hNamed
      cases hNamed
  · intro hWhole
    have hLast : NamedLast hash i (definitionsOf chain name types) name types m.renames := by
      apply separateAll_keeps (NamedLast hash i (definitionsOf chain name types) name types) _ _ hRun
      · exact .inl fun d _ => rfl
      · intro p hp around hAround f hf r r' new hr hRename
        exact hr.renameFamily hChain hp hAround hf hRename
    rcases hLast with hNone | ⟨p, hp, around, hAround, hCollides, ⟨d, hd, hIn⟩, n, hNamed⟩
    · exact .inr hNone
    · refine .inl ⟨n, fun e he => ?_⟩
      by_cases heIn : e.contract ∈ around
      · exact hNamed e he heIn
      · by_contra hOther
        refine hWhole ⟨p, hp, chain, around, hChain, hAround, ?_, hCollides, d, hd, e, he, n, hIn,
          hNamed d hd hIn, heIn, hOther⟩
        exact fun hInherits => heIn (mem_of_inherits hChain hAround hInherits he)

/-- A function of `A` gets a new name in `B`, where it meets another one. `C` overrides it. -/
def overridden : Index :=
  { (default : Index) with
    unit := ⟨[contractOf "A" [] [overload "foo" "uint256[]" 10],
      contractOf "B" ["A"] [overload "foo" "uint256" 20],
      contractOf "C" ["A"] [overload "foo" "uint256[]" 30]], default⟩ }

/-- The definition in `C` keeps its name, while the one that it overrides has got another. The hash is
the length of a text. -/
theorem overridden_divided :
    ∃ m c, separateAll (fun text => text.length.toUInt32) overridden = .ok m ∧
      overridden.contract? "C" = some c ∧
      m.renames = [⟨⟨"A", "foo", ["uint256[]"]⟩, "foo_uint256_dyn", ⟨10, 13⟩⟩] ∧
      ∃ p ∈ overridden.contracts,
        Divides (fun text => text.length.toUInt32) overridden m.renames c p "foo" ["uint256[]"] := by
  have hRun : (separateAll (fun text => text.length.toUInt32) overridden).map Marking.renames =
      .ok [⟨⟨"A", "foo", ["uint256[]"]⟩, "foo_uint256_dyn", ⟨10, 13⟩⟩] := by
    cbv
  have hSeen : (do
      let c ← overridden.contract "C"
      let chain ← overridden.linearize c.name
      return (definitionsOf chain "foo" ["uint256[]"]).map FunctionRef.key) =
      .ok [⟨"A", "foo", ["uint256[]"]⟩, ⟨"C", "foo", ["uint256[]"]⟩] := by
    cbv
  obtain ⟨m, hOk, hRenames⟩ := Outcome.map_eq_ok_iff.mp hRun
  obtain ⟨c, hFound, hSeen⟩ := Outcome.bind_eq_ok_iff.mp hSeen
  obtain ⟨chain, hChain, hSeen⟩ := Outcome.bind_pure_eq_ok_iff.mp hSeen
  rw [Index.contract_eq_ok_iff] at hFound
  obtain ⟨own, hOwn, hShared⟩ :=
    shared_iff_not_divided hOk (Index.mem_contracts_of_contract? hFound)
  rw [hChain, Except.ok.injEq] at hOwn
  subst hOwn
  refine ⟨m, c, hOk, hFound, hRenames, ?_⟩
  by_contra hNone
  obtain ⟨first, rest, hList, hFirst, hRest⟩ := List.map_eq_cons_iff.mp hSeen
  obtain ⟨second, last, rfl, hSecond, _⟩ := List.map_eq_cons_iff.mp hRest
  have hBoth := (hShared "foo" ["uint256[]"]).mpr hNone
  rw [hList, hRenames, Renames.Shared] at hBoth
  simp [hFirst, hSecond, Renames.find?] at hBoth

end Collision

end SolNorm
