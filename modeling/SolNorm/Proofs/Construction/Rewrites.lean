import SolNorm.Proofs.Construction.Edits
import SolNorm.Proofs.Linearization.Soundness

/-!
Which contracts call which of the functions that constructors become. The main contract calls those
of all its bases. Another contract calls those of the converted bases that it inherits, unless it
inherits them through a contract that can be deployed as well and is not a base of the main one.
-/

namespace SolNorm.Construction

open Outline Relation

/-- The constructor of a contract is converted into a function: the main contract inherits it. -/
def IsConverted (i : Index) (main c : Contract) : Prop :=
  TransGen i.Extends main c ∧ c.constructor?.isSome = true

/-- A contract can be deployed and is neither the main one nor inherited by it. Of several contracts
with one name it is enough that one can be deployed. -/
def IsOther (i : Index) (main c : Contract) : Prop :=
  ¬ ReflTransGen i.Extends main c ∧ ∃ d ∈ i.contracts, d.name = c.name ∧ d.isConcrete = true

/-- The constructor of a contract starts with a call for the constructor of another one. -/
def Initializes (i : Index) (main c base : Contract) : Prop :=
  IsConverted i main base ∧
    (c = main ∨ c.isConcrete = true ∧ ¬ ReflTransGen i.Extends main c ∧ TransGen i.Extends c base ∧
      ∀ d, TransGen i.Extends c d → IsOther i main d → ¬ TransGen i.Extends d base)

/-- The calls that the constructor of a contract starts with. -/
def callsIn (rewrites : List Rewrite) (c : Contract) : List Initialization :=
  ((rewrites.find? fun r => r.contract == c).map Rewrite.calls).getD []

/-- Where keys are unique, to look up is to be a member. -/
theorem lookup_eq_some_iff_mem {α : Type} {l : List (String × α)} {name : String} {a : α}
    (hUnique : ∀ name a b, (name, a) ∈ l → (name, b) ∈ l → a = b) :
    l.lookup name = some a ↔ (name, a) ∈ l := by
  constructor
  · intro h
    obtain ⟨before, after, rfl, _⟩ := List.lookup_eq_some_iff.mp h
    exact List.mem_append_right _ List.mem_cons_self
  · intro h
    cases hLookup : l.lookup name with
    | none =>
        have hNone := List.lookup_eq_none_iff.mp hLookup _ h
        simp at hNone
    | some b =>
        obtain ⟨before, after, rfl, _⟩ := List.lookup_eq_some_iff.mp hLookup
        rw [hUnique name b a (List.mem_append_right _ List.mem_cons_self) h]

theorem mem_names_iff {i : Index} {name : String} {chain : List Contract} {c d : Contract}
    (h : i.linearize name = .ok chain) (hFound : i.contract? name = some c)
    (hd : i.contract? d.name = some d) :
    d.name ∈ chain.map Contract.name ↔ ReflTransGen i.Extends c d := by
  rw [← Index.mem_linearize_iff h hFound, List.mem_map]
  constructor
  · rintro ⟨e, he, hName⟩
    rw [Index.eq_of_name_eq hd (Index.contract?_of_mem_linearize h he) hName.symm]
    exact he
  · intro hMem
    exact ⟨d, hMem, rfl⟩

section

variable {i : Index} {main : Contract} {bases : List Contract}

/-- The converted names are those of bases of the main contract that have a constructor. -/
theorem mem_convertedNames_iff (hMain : i.linearize main.name = .ok (bases ++ [main]))
    {b : Contract} (hb : i.contract? b.name = some b) :
    b.name ∈ convertedNames (bases ++ [main]) ↔ IsConverted i main b := by
  rw [IsConverted, ← Index.mem_bases_iff hMain, convertedNames, List.dropLast_concat, constructed,
    List.mem_map]
  constructor
  · rintro ⟨d, hd, hName⟩
    obtain ⟨hBase, hCtor⟩ := List.mem_filter.mp hd
    have hd := Index.contract?_of_mem_linearize hMain (List.mem_append_left _ hBase)
    rw [Index.eq_of_name_eq hb hd hName.symm]
    exact ⟨hBase, hCtor⟩
  · rintro ⟨hBase, hCtor⟩
    exact ⟨b, List.mem_filter.mpr ⟨hBase, hCtor⟩, rfl⟩

/-- A contract is affected if it can be deployed, is outside of the main chain and has a converted
base. -/
theorem mem_affectedBy_iff {name : String} {chain : List Contract} :
    (name, chain) ∈ affectedBy i (bases ++ [main]) ↔
      (∃ d ∈ i.contracts, d.name = name ∧ d.isConcrete = true) ∧
      name ∉ (bases ++ [main]).map Contract.name ∧ i.linearize name = .ok chain ∧
      ∃ b ∈ chain.dropLast, b.name ∈ convertedNames (bases ++ [main]) := by
  unfold affectedBy affectedChains
  constructor
  · intro h
    obtain ⟨c, hc, hEntry⟩ := List.mem_filterMap.mp h
    simp only [List.mem_filter, Bool.and_eq_true, Bool.not_eq_true', Bool.eq_false_iff,
      List.contains_iff_mem, ne_eq] at hc
    split at hEntry
    · rename_i own hOrder
      simp only [Option.ite_none_right_eq_some, Option.some.injEq, Prod.mk.injEq, List.any_eq_true,
        List.contains_iff_mem] at hEntry
      obtain ⟨hBase, rfl, rfl⟩ := hEntry
      exact ⟨⟨c, hc.1, rfl, hc.2.1⟩, hc.2.2, hOrder, hBase⟩
    · cases hEntry
  · rintro ⟨⟨c, hc, rfl, hConcrete⟩, hNew, hOrder, hBase⟩
    refine List.mem_filterMap.mpr ⟨c, ?_, ?_⟩
    · simp only [List.mem_filter, hc, hConcrete, Bool.true_and, Bool.not_eq_true',
        Bool.eq_false_iff, List.contains_iff_mem, ne_eq, true_and]
      exact hNew
    · simp only [hOrder, Option.ite_none_right_eq_some, List.any_eq_true, List.contains_iff_mem,
        and_true]
      exact hBase

/-- All entries of one name are the same. -/
theorem lookup_affectedBy {name : String} {chain : List Contract} :
    (affectedBy i (bases ++ [main])).lookup name = some chain ↔
      (name, chain) ∈ affectedBy i (bases ++ [main]) :=
  lookup_eq_some_iff_mem fun _ _ _ hx hy =>
    Except.ok.inj ((mem_affectedBy_iff.mp hx).2.2.1.symm.trans (mem_affectedBy_iff.mp hy).2.2.1)

theorem lookup_affectedBy_iff (hMain : i.linearize main.name = .ok (bases ++ [main]))
    {c : Contract} {chain : List Contract} (hc : i.contract? c.name = some c) :
    (affectedBy i (bases ++ [main])).lookup c.name = some chain ↔
      IsOther i main c ∧ i.linearize c.name = .ok chain ∧
        ∃ b ∈ chain.dropLast, IsConverted i main b := by
  rw [lookup_affectedBy, mem_affectedBy_iff,
    mem_names_iff hMain (Index.contract?_of_linearize hMain) hc, IsOther]
  have hBase (hOrder : i.linearize c.name = .ok chain) :
      (∃ b ∈ chain.dropLast, b.name ∈ convertedNames (bases ++ [main])) ↔
        ∃ b ∈ chain.dropLast, IsConverted i main b := by
    refine exists_congr fun b => and_congr_right fun hb => mem_convertedNames_iff hMain ?_
    exact Index.contract?_of_mem_linearize hOrder (List.mem_of_mem_dropLast hb)
  constructor
  · rintro ⟨hConcrete, hNew, hOrder, hSome⟩
    exact ⟨⟨hNew, hConcrete⟩, hOrder, (hBase hOrder).mp hSome⟩
  · rintro ⟨⟨hNew, hConcrete⟩, hOrder, hSome⟩
    exact ⟨hConcrete, hNew, hOrder, (hBase hOrder).mpr hSome⟩

/-- The converted bases that an affected contract leaves to the contracts that it inherits. -/
theorem mem_coveredBases_iff (hMain : i.linearize main.name = .ok (bases ++ [main]))
    {c b : Contract} {own : List Contract} (hOrder : i.linearize c.name = .ok (own ++ [c]))
    (hb : i.contract? b.name = some b) (hConverted : IsConverted i main b) :
    b.name ∈ coveredBases (affectedBy i (bases ++ [main])) (convertedNames (bases ++ [main]))
        (own ++ [c]) ↔
      ∃ d, TransGen i.Extends c d ∧ IsOther i main d ∧ TransGen i.Extends d b := by
  have hName := (mem_convertedNames_iff hMain hb).mpr hConverted
  simp only [coveredBases, List.dropLast_concat, List.mem_filter, List.contains_iff_mem, hName,
    and_true, List.mem_flatMap, List.mem_filterMap, Index.mem_bases_iff hOrder]
  constructor
  · rintro ⟨chain, ⟨d, hPath, hLookup⟩, hIn⟩
    have hd := Index.contract?_of_mem_linearize hOrder
      (List.mem_append_left _ ((Index.mem_bases_iff hOrder).mpr hPath))
    obtain ⟨hOther, hChain, _⟩ := (lookup_affectedBy_iff hMain hd).mp hLookup
    refine ⟨d, hPath, hOther, ?_⟩
    rcases reflTransGen_iff_eq_or_transGen.mp ((mem_names_iff hChain hd hb).mp hIn) with rfl | hTo
    · exact absurd hConverted.1.to_reflTransGen hOther.1
    · exact hTo
  · rintro ⟨d, hPath, hOther, hTo⟩
    have hMem := List.mem_append_left [c] ((Index.mem_bases_iff hOrder).mpr hPath)
    have hd := Index.contract?_of_mem_linearize hOrder hMem
    obtain ⟨chain, hChain, _⟩ := Index.linearize_of_mem hOrder hMem
    have hBase := (Index.mem_bases_iff hChain).mpr hTo
    refine ⟨chain ++ [d], ⟨d, hPath, ?_⟩, List.mem_map_of_mem (List.mem_append_left _ hBase)⟩
    rw [lookup_affectedBy_iff hMain hd, List.dropLast_concat]
    exact ⟨hOther, hChain, b, hBase, hConverted⟩

/-- Calls are those that the constructor of a contract has to start with: one for every constructor
that the contract initializes, in the order of the contracts. -/
def AreCallsOf (i : Index) (main c : Contract) (calls : List Initialization) : Prop :=
  ∀ own, i.linearize c.name = .ok (own ++ [c]) →
    (calls.map Initialization.source).Sublist (constructorsOf own) ∧
    ∀ x ∈ constructorsOf own, x ∈ calls.map Initialization.source ↔ Initializes i main c x.1

/-- The calls of the main contract are those of its own chain. -/
theorem areCallsOf_main (hMain : i.linearize main.name = .ok (bases ++ [main]))
    {calls : List Initialization} (hCalls : calls.map Initialization.source = constructorsOf bases) :
    AreCallsOf i main main calls := by
  intro own hOwn
  obtain rfl : bases = own :=
    (List.append_inj' (Except.ok.inj (hMain.symm.trans hOwn)) rfl).1
  refine ⟨hCalls ▸ List.Sublist.refl _, fun x hx => ?_⟩
  obtain ⟨hBase, hCtor⟩ := mem_constructorsOf_iff.mp hx
  rw [hCalls]
  refine iff_of_true hx ⟨⟨(Index.mem_bases_iff hMain).mp hBase, ?_⟩, .inl rfl⟩
  rw [hCtor]
  rfl

/-- The calls that are planned for an affected contract. -/
theorem areCallsOf_affected (hMain : i.linearize main.name = .ok (bases ++ [main])) {c : Contract}
    {chain : List Contract} {q : Plan} {calls : List Initialization}
    (hAffected : (c, chain) ∈ affectedContracts i main (bases ++ [main]))
    (hPlan : plan i c (isLeftTo i (bases ++ [main]) chain) = .ok q)
    (hCalls : calls.map Initialization.source =
      constructorsOf (q.chain.dropLast.filter (isLeftTo i (bases ++ [main]) chain))) :
    AreCallsOf i main c calls := by
  intro own hOwn
  obtain ⟨_, hConcrete, _, hLookup⟩ := mem_affectedContracts_iff.mp hAffected
  obtain ⟨hOther, hChain, _⟩ :=
    (lookup_affectedBy_iff hMain (Index.contract?_of_linearize hOwn)).mp hLookup
  obtain rfl : own ++ [c] = chain := Except.ok.inj (hOwn.symm.trans hChain)
  obtain hSame : own ++ [c] = q.chain :=
    Except.ok.inj (hOwn.symm.trans (initializers_of_plan hPlan).2.1)
  rw [← hSame, List.dropLast_concat, constructorsOf_filter] at hCalls
  rw [hCalls]
  refine ⟨List.filter_sublist, fun x hx => ?_⟩
  obtain ⟨hBase, _⟩ := mem_constructorsOf_iff.mp hx
  have hb := Index.contract?_of_mem_linearize hOwn (List.mem_append_left _ hBase)
  have hNotMain : c ≠ main := by
    rintro rfl
    exact hOther.1 .refl
  -- Here the contract is neither the main one nor below it, and inherits the base, so the test that
  -- was made on names is what is left of the relation.
  simp only [List.mem_filter, hx, true_and, isLeftTo, Bool.and_eq_true, List.contains_iff_mem,
    Bool.not_eq_true', Bool.eq_false_iff, ne_eq, mem_convertedNames_iff hMain hb, Initializes,
    hNotMain, false_or, hConcrete, hOther.1, not_false_eq_true,
    (Index.mem_bases_iff hOwn).mp hBase]
  refine and_congr_right fun hConverted => ?_
  rw [mem_coveredBases_iff hMain hOwn hb hConverted]
  simp only [not_exists, not_and]

/-- A contract that has to call for a converted base is among the affected ones. -/
theorem mem_affectedContracts_of_initializes
    (hMain : i.linearize main.name = .ok (bases ++ [main])) {c b : Contract} {own : List Contract}
    (hOwn : i.linearize c.name = .ok (own ++ [c])) (hNotMain : c ≠ main)
    (h : Initializes i main c b) : (c, own ++ [c]) ∈ affectedContracts i main (bases ++ [main]) := by
  obtain ⟨hConverted, hSame | ⟨hConcrete, hOutside, hPath, _⟩⟩ := h
  · exact absurd hSame hNotMain
  have hc := Index.contract?_of_linearize hOwn
  have hMember := Index.mem_contracts_of_contract? hc
  refine mem_affectedContracts_iff.mpr ⟨hMember, hConcrete, fun hName => ?_, ?_⟩
  · exact hNotMain (Index.eq_of_name_eq hc (Index.contract?_of_linearize hMain) hName)
  · refine (lookup_affectedBy_iff hMain hc).mpr ⟨⟨hOutside, c, hMember, rfl, hConcrete⟩, hOwn, b, ?_⟩
    rw [List.dropLast_concat]
    exact ⟨(Index.mem_bases_iff hOwn).mpr hPath, hConverted⟩

/-- The edits of a merge make every constructor start with the calls for what its contract
initializes. -/
theorem rewrites_of_mergeFor (hMain : i.linearize main.name = .ok (bases ++ [main])) {p : Plan}
    {edits : List Edit} {reports : List Report} (hPlan : plan i main (fun _ => true) = .ok p)
    (h : mergeFor i p = .ok (edits, reports)) :
    ∃ rewrites, WrittenBy i (constructorsOf bases) rewrites edits ∧
      ∀ c, AreCallsOf i main c (callsIn rewrites c) := by
  have hChain : p.chain = bases ++ [main] :=
    Except.ok.inj ((initializers_of_plan hPlan).2.1.symm.trans hMain)
  obtain ⟨own, others, _, hWritten, hSelf, hOwn, hOthers, hComplete, _⟩ := planned_of_mergeFor hPlan h
  rw [hChain] at hWritten hOthers hComplete
  rw [List.dropLast_concat] at hWritten
  have hCalls : ∀ r ∈ own :: others, AreCallsOf i main r.contract r.calls := by
    refine List.forall_mem_cons.mpr ⟨?_, fun r hr => ?_⟩
    · rw [hSelf]
      refine areCallsOf_main hMain ?_
      rw [hOwn.calls, hChain, List.dropLast_concat, List.filter_true]
    · obtain ⟨chain, q, hAffected, hPlanned⟩ := hOthers r hr
      exact areCallsOf_affected hMain hAffected hPlanned.planned hPlanned.calls
  refine ⟨own :: others, hWritten, fun c => ?_⟩
  unfold callsIn
  cases hFind : (own :: others).find? fun r => r.contract == c with
  | some r =>
      have hr : r.contract = c := by simpa using List.find?_some hFind
      exact hr ▸ hCalls r (List.mem_of_find?_eq_some hFind)
  | none =>
      -- A contract whose constructor is not written anew initializes nothing, for otherwise its plan
      -- would have calls.
      have hNew : c ∉ (own :: others).map Rewrite.contract := by
        rintro hMem
        obtain ⟨r, hr, hSame⟩ := List.mem_map.mp hMem
        simpa [hSame] using List.find?_eq_none.mp hFind r hr
      rw [List.map_cons, List.mem_cons, not_or, hSelf] at hNew
      refine fun chain hOrder => ⟨List.nil_sublist _, fun x hx => ?_⟩
      refine iff_of_false List.not_mem_nil fun hInit => hNew.2 ?_
      have hAffected := mem_affectedContracts_of_initializes hMain hOrder hNew.1 hInit
      obtain ⟨q, hq, hWritten⟩ := hComplete _ hAffected
      obtain ⟨_, _, calls, hSources, hText, _⟩ := initializers_of_plan hq
      have hSome := ((areCallsOf_affected hMain hAffected hq hSources chain hOrder).2 x hx).mpr hInit
      refine hWritten fun hEmpty => ?_
      rw [hText, List.map_eq_nil_iff] at hEmpty
      rw [hEmpty] at hSome
      cases hSome

end

end SolNorm.Construction
