import SolNorm.Proofs.Linearization.Soundness

/-!
When the ancestors of a contract have no order. The search for them ends on every outline, also
where contracts inherit each other in a circle. It fails for three reasons only: a base is not there,
a contract inherits itself, or no order of a contract's ancestors agrees with its bases.
-/

namespace SolNorm.Index

open Outline

mutual

/-- The search for ancestors without a bound on its depth. A derivation is a search that ends. -/
inductive SearchesTo (i : Index) : List String → String → Except Error (List String) → Prop where
  | undefined {active : List String} {name : String} (hNone : i.contract? name = none) :
      SearchesTo i active name (.error (.undefinedBase (active.headD name) name))
  | cycle {active : List String} {name : String} {c : Contract}
      (hFound : i.contract? name = some c) (hActive : c.name ∈ active) :
      SearchesTo i active name (.error (.inheritanceCycle c.name))
  | failed {active : List String} {name : String} {c : Contract} {e : Error}
      (hFound : i.contract? name = some c) (hActive : c.name ∉ active)
      (hBases : SearchesAll i (c.name :: active) (baseNames c) (.error e)) :
      SearchesTo i active name (.error e)
  | stuck {active : List String} {name : String} {c : Contract} {lists : List (List String)}
      (hFound : i.contract? name = some c) (hActive : c.name ∉ active)
      (hBases : SearchesAll i (c.name :: active) (baseNames c) (.ok lists))
      (hMerge : MergesTo (lists ++ [(baseNames c).map lastSegment]) none) :
      SearchesTo i active name (.error (.noLinearization c.name))
  | found {active : List String} {name : String} {c : Contract} {lists : List (List String)}
      {merged : List String} (hFound : i.contract? name = some c) (hActive : c.name ∉ active)
      (hBases : SearchesAll i (c.name :: active) (baseNames c) (.ok lists))
      (hMerge : MergesTo (lists ++ [(baseNames c).map lastSegment]) (some merged)) :
      SearchesTo i active name (.ok (c.name :: merged))

/-- The search for the ancestors of several contracts, which stops at the first failure. -/
inductive SearchesAll (i : Index) :
    List String → List String → Except Error (List (List String)) → Prop where
  | nil {active : List String} : SearchesAll i active [] (.ok [])
  | failed {active rest : List String} {b : String} {e : Error}
      (hFirst : SearchesTo i active b (.error e)) : SearchesAll i active (b :: rest) (.error e)
  | later {active rest : List String} {b : String} {l : List String} {e : Error}
      (hFirst : SearchesTo i active b (.ok l)) (hRest : SearchesAll i active rest (.error e)) :
      SearchesAll i active (b :: rest) (.error e)
  | cons {active rest : List String} {b : String} {l : List String} {lists : List (List String)}
      (hFirst : SearchesTo i active b (.ok l)) (hRest : SearchesAll i active rest (.ok lists)) :
      SearchesAll i active (b :: rest) (.ok (l :: lists))

end

/-- A contract that a name stands for, or that such a contract inherits. -/
def Reaches (i : Index) (name : String) (d : Contract) : Prop :=
  ∃ c, i.contract? name = some c ∧ Relation.ReflTransGen i.Extends c d

/-- An order of all that a contract inherits, the most derived first, which agrees with the orders of
its bases and with the order in which it names them. -/
structure Agrees (i : Index) (c : Contract) (order : List Contract) : Prop where
  nodup : order.Nodup
  complete : ∀ d, d ∈ order ↔ Relation.TransGen i.Extends c d
  chains : ∀ b ∈ c.bases, ∃ chain, i.linearize b.name = .ok chain ∧ chain.reverse.Sublist order
  bases : ∃ bases : List Contract,
    c.bases.map (fun b => i.contract? b.name) = bases.map some ∧ bases.reverse.Sublist order

/-- All bases of a contract have orders, and no order agrees with them. -/
def Conflicts (i : Index) (c : Contract) : Prop :=
  (∀ b ∈ c.bases, ∃ chain, i.linearize b.name = .ok chain) ∧ ¬ ∃ order, i.Agrees c order

/-- The contracts that are looked for while a search goes on. They are different contracts of the
outline, so there are never more of them than the bound allows. -/
structure IsActive (i : Index) (n : Nat) (active : List String) : Prop where
  nodup : active.Nodup
  known : active ⊆ i.contracts.map Contract.name
  bound : i.contracts.length < n + active.length

/-- The contracts that are looked for are different ones, so the bound is not used up. -/
theorem IsActive.pos {i : Index} {n : Nat} {active : List String} (h : i.IsActive n active) :
    0 < n := by
  have hLength := (List.subperm_of_subset h.nodup h.known).length_le
  have hBound := h.bound
  rw [List.length_map] at hLength
  omega

/-- The step: one more contract becomes active, and the bound goes down. -/
theorem IsActive.cons {i : Index} {n : Nat} {active : List String} {name : String} {c : Contract}
    (h : i.IsActive (n + 1) active) (hFound : i.contract? name = some c)
    (hNew : c.name ∉ active) : i.IsActive n (c.name :: active) := by
  refine ⟨List.nodup_cons.mpr ⟨hNew, h.nodup⟩, List.cons_subset.mpr ⟨?_, h.known⟩, ?_⟩
  · exact List.mem_map_of_mem (mem_contracts_of_contract? hFound)
  · have hBound := h.bound
    rw [List.length_cons]
    omega

theorem isActive_nil (i : Index) : i.IsActive (i.contracts.length + 1) [] :=
  ⟨List.nodup_nil, List.nil_subset _, by simp⟩

/-- The bases are searched one after the other, up to the first failure. -/
theorem searchesAll_mapM {i : Index} {active : List String}
    {search : String → Except Error (List String)}
    (hEach : ∀ b, i.SearchesTo active b (search b)) (bases : List String) :
    i.SearchesAll active bases (bases.mapM search) := by
  induction bases with
  | nil => exact .nil
  | cons b rest ih =>
      have hFirst := hEach b
      rw [List.mapM_cons]
      cases hSearch : search b with
      | error e => exact .failed (hSearch ▸ hFirst)
      | ok l =>
          cases hRest : rest.mapM search with
          | error e => exact .later (hSearch ▸ hFirst) (hRest ▸ ih)
          | ok lists => exact .cons (hSearch ▸ hFirst) (hRest ▸ ih)

/-- The run of a search: the number of contracts is bound enough, so it ends by itself. -/
theorem searchesTo_ancestors {i : Index} {n : Nat} {active : List String}
    (hActive : i.IsActive n active) (name : String) :
    i.SearchesTo active name (i.ancestors n active name) := by
  induction n generalizing active name with
  | zero => exact absurd hActive.pos (by omega)
  | succ n ih =>
      cases hFound : i.contract? name with
      | none =>
          rw [ancestors_of_undefined hFound]
          exact .undefined hFound
      | some c =>
          by_cases hOld : c.name ∈ active
          · rw [ancestors_of_active hFound hOld]
            exact .cycle hFound hOld
          · have hBases := searchesAll_mapM (ih (hActive.cons hFound hOld)) (baseNames c)
            rw [ancestors_of_found hFound hOld]
            cases hLists : (baseNames c).mapM (i.ancestors n (c.name :: active)) with
            | error e => exact .failed hFound hOld (hLists ▸ hBases)
            | ok lists =>
                rw [hLists] at hBases
                have hMerge : MergesTo (lists ++ [(baseNames c).map lastSegment])
                    (mergeBases? c lists) := mergesTo_merge? le_rfl
                simp only [Except.bind]
                cases hMerged : mergeBases? c lists with
                | none => exact .stuck hFound hOld hBases (hMerged ▸ hMerge)
                | some merged => exact .found hFound hOld hBases (hMerged ▸ hMerge)

/-- A search fails because the contract is not there, because it is looked for already, because the
search for a base fails, or because the orders of the bases cannot be merged. -/
theorem ancestors_eq_error {i : Index} {n : Nat} {active : List String} {name : String} {e : Error}
    (h : i.ancestors (n + 1) active name = .error e) :
    (i.contract? name = none ∧ e = .undefinedBase (active.headD name) name) ∨
    ∃ c, i.contract? name = some c ∧
      ((c.name ∈ active ∧ e = .inheritanceCycle c.name) ∨ c.name ∉ active ∧
        ((∃ b ∈ baseNames c, i.ancestors n (c.name :: active) b = .error e) ∨
        ∃ lists, List.Forall₂ (fun b l => i.ancestors n (c.name :: active) b = .ok l)
          (baseNames c) lists ∧ mergeBases? c lists = none ∧ e = .noLinearization c.name)) := by
  cases hFound : i.contract? name with
  | none =>
      rw [ancestors_of_undefined hFound, Except.error.injEq] at h
      exact .inl ⟨rfl, h.symm⟩
  | some c =>
      refine .inr ⟨c, rfl, ?_⟩
      by_cases hActive : c.name ∈ active
      · rw [ancestors_of_active hFound hActive, Except.error.injEq] at h
        exact .inl ⟨hActive, h.symm⟩
      · rw [ancestors_of_found hFound hActive] at h
        cases hLists : (baseNames c).mapM (i.ancestors n (c.name :: active)) with
        | error e' =>
            simp only [hLists, Except.bind, Except.error.injEq] at h
            exact .inr ⟨hActive, .inl (Outcome.exists_of_mapM_eq_error (h ▸ hLists))⟩
        | ok lists =>
            simp only [hLists, Except.bind] at h
            cases hMerge : mergeBases? c lists with
            | some merged => simp [hMerge] at h
            | none =>
                simp only [hMerge, Except.error.injEq] at h
                exact .inr ⟨hActive, .inr ⟨lists, Outcome.mapM_eq_ok_iff.mp hLists, hMerge, h.symm⟩⟩

/-- Whatever fails in the search is an error of inheritance. -/
theorem inheritance_of_ancestors_eq_error {i : Index} {n : Nat} {active : List String}
    {name : String} {e : Error} (h : i.ancestors n active name = .error e) :
    ∃ contract message, e = .inheritance contract message := by
  induction n generalizing active name with
  | zero =>
      rw [ancestors, Except.error.injEq] at h
      exact ⟨_, _, h.symm⟩
  | succ n ih =>
      rcases ancestors_eq_error h with
        ⟨_, rfl⟩ | ⟨c, _, ⟨_, rfl⟩ | ⟨_, ⟨b, _, hFails⟩ | ⟨_, _, _, rfl⟩⟩⟩
      · exact ⟨_, _, rfl⟩
      · exact ⟨_, _, rfl⟩
      · exact ih hFails
      · exact ⟨_, _, rfl⟩

/-- A contract is a reason for a search to fail. -/
def Blocks (i : Index) (c : Contract) : Prop :=
  (∃ b ∈ c.bases, i.contract? b.name = none) ∨ Relation.TransGen i.Extends c c ∨ i.Conflicts c

/-- Every contract that is looked for inherits the one that a name stands for. -/
def IsPath (i : Index) (active : List String) (name : String) : Prop :=
  ∀ a ∈ active, ∀ c, i.contract? name = some c →
    ∃ d, i.contract? a = some d ∧ Relation.TransGen i.Extends d c

theorem IsPath.cons {i : Index} {active : List String} {name b : String} {c : Contract}
    (h : i.IsPath active name) (hFound : i.contract? name = some c) (hb : b ∈ baseNames c) :
    i.IsPath (c.name :: active) b := by
  obtain ⟨base, hBase, rfl⟩ := mem_baseNames.mp hb
  intro a ha d hd
  have hExtends : i.Extends c d := ⟨base, hBase, hd⟩
  rcases List.mem_cons.mp ha with rfl | ha
  · exact ⟨c, contract?_name hFound, .single hExtends⟩
  · obtain ⟨first, hFirst, hPath⟩ := h a ha c hFound
    exact ⟨first, hFirst, hPath.tail hExtends⟩

theorem map_name_filterMap {i : Index} {name : String} {found names : List String}
    (h : i.order name = .ok found) (hSub : names ⊆ found) :
    (names.filterMap i.contract?).map Contract.name = names := by
  induction names with
  | nil => rfl
  | cons x rest ih =>
      obtain ⟨hx, hRest⟩ := List.cons_subset.mp hSub
      obtain ⟨c, hFound, hName⟩ := (isAncestry_of_ancestors h).known x hx
      rw [List.filterMap_cons_some hFound, List.map_cons, hName, ih hRest]

theorem map_name_of_bases {i : Index} {invocations : List Invocation} {bases : List Contract}
    (h : invocations.map (fun b => i.contract? b.name) = bases.map some) :
    bases.map Contract.name = invocations.map fun b => lastSegment b.name := by
  induction invocations generalizing bases with
  | nil =>
      cases bases with
      | nil => rfl
      | cons base rest => simp at h
  | cons b others ih =>
      cases bases with
      | nil => simp at h
      | cons base rest =>
          simp only [List.map_cons, List.cons.injEq] at h
          rw [List.map_cons, List.map_cons, name_of_contract? h.1, ih h.2]

/-- If the orders of the bases cannot be merged, then no order agrees with all of them. -/
theorem conflicts_of_mergeBases? {i : Index} {c : Contract} {lists : List (List String)}
    (hLists : List.Forall₂ (fun b l => i.order b = .ok l) (baseNames c) lists)
    (hMerge : mergeBases? c lists = none) : i.Conflicts c := by
  constructor
  · intro b hb
    obtain ⟨_, _, l, _, hOk⟩ := exists_order_of_base hLists hb
    exact ⟨_, linearize_eq_ok_iff.mpr ⟨l, hOk, rfl⟩⟩
  · rintro ⟨order, hNodup, hComplete, hChains, bases, hBases, hKept⟩
    have hSelf : ∀ d ∈ order, i.contract? d.name = some d := by
      intro d hd
      obtain ⟨_, _, _, _, hFound⟩ := Relation.TransGen.tail'_iff.mp ((hComplete d).mp hd)
      exact contract?_name hFound
    have hNames : (order.map Contract.name).Nodup := by
      exact hNodup.map_on fun a ha b hb hSame => eq_of_name_eq (hSelf a ha) (hSelf b hb) hSame
    have hAgree : ∀ list ∈ lists ++ [(baseNames c).map lastSegment],
        list.Sublist (order.map Contract.name) := by
      intro list hList
      rcases List.mem_append.mp hList with hList | hList
      · obtain ⟨b, hb, hOk⟩ := Outcome.exists_left_of_mem hLists hList
        obtain ⟨base, hBase, rfl⟩ := mem_baseNames.mp hb
        obtain ⟨chain, hChain, hSub⟩ := hChains base hBase
        obtain ⟨found, hFound, rfl⟩ := linearize_eq_ok_iff.mp hChain
        obtain rfl : found = list := Except.ok.inj (hFound.symm.trans hOk)
        have hMap := hSub.map Contract.name
        rwa [← List.filterMap_reverse, List.reverse_reverse,
          map_name_filterMap hOk (List.Subset.refl _)] at hMap
      · have hMap := hKept.map Contract.name
        rw [List.map_reverse, map_name_of_bases hBases] at hMap
        rw [List.mem_singleton.mp hList, baseNames, List.map_map, List.map_reverse]
        exact hMap
    obtain ⟨merged, hMerged⟩ := exists_merge? le_rfl hNames hAgree
    rw [mergeBases?, hMerged] at hMerge
    cases hMerge

/-- A search fails only if something that is reached blocks it. -/
theorem blocks_of_ancestors_eq_error {i : Index} {n : Nat} {active : List String} {name : String}
    {e : Error} (hBound : n ≤ i.contracts.length + 1) (hActive : i.IsActive n active)
    (hPath : i.IsPath active name) (h : i.ancestors n active name = .error e) :
    i.contract? name = none ∨ ∃ d, i.Reaches name d ∧ i.Blocks d := by
  induction n generalizing active name with
  | zero => exact absurd hActive.pos (by omega)
  | succ n ih =>
      rcases ancestors_eq_error h with
        ⟨hNone, _⟩ | ⟨c, hFound, ⟨hOld, _⟩ | ⟨hNew, ⟨b, hb, hFails⟩ | ⟨lists, hLists, hMerge, _⟩⟩⟩
      · exact .inl hNone
      · obtain ⟨d, hd, hCycle⟩ := hPath c.name hOld c hFound
        obtain rfl : c = d := Option.some.inj ((contract?_name hFound).symm.trans hd)
        exact .inr ⟨c, ⟨c, hFound, .refl⟩, .inr (.inl hCycle)⟩
      · have hNext := ih (by omega) (hActive.cons hFound hNew) (hPath.cons hFound hb) hFails
        obtain ⟨base, hBase, rfl⟩ := mem_baseNames.mp hb
        rcases hNext with hNone | ⟨d, ⟨first, hFirst, hReach⟩, hBlocks⟩
        · exact .inr ⟨c, ⟨c, hFound, .refl⟩, .inl ⟨base, hBase, hNone⟩⟩
        · exact .inr ⟨d, ⟨c, hFound, .head ⟨base, hBase, hFirst⟩ hReach⟩, hBlocks⟩
      · refine .inr ⟨c, ⟨c, hFound, .refl⟩, .inr (.inr ?_)⟩
        exact conflicts_of_mergeBases?
          (hLists.imp fun b l hb => ancestors_mono hb (by omega) (by simp)) hMerge

/-- What the merge gives agrees with the orders of all bases. -/
theorem agrees_of_order {i : Index} {c : Contract} {lists : List (List String)}
    {merged : List String} (hSelf : i.contract? c.name = some c)
    (h : i.order c.name = .ok (c.name :: merged))
    (hLists : List.Forall₂ (fun b l => i.order b = .ok l) (baseNames c) lists)
    (hMerge : mergeBases? c lists = some merged) :
    i.Agrees c (merged.filterMap i.contract?) := by
  obtain ⟨hNodup, hKept, hBases, _⟩ := mergeBases?_eq_some hMerge
  have hNames := map_name_filterMap h (List.subset_cons_self c.name merged)
  refine ⟨List.Nodup.of_map Contract.name (hNames.symm ▸ hNodup), fun d => ?_, fun b hb => ?_, ?_⟩
  · rw [← mem_bases_iff (linearize_of_order h hSelf), List.filterMap_reverse, List.mem_reverse]
  · obtain ⟨_, _, l, hl, hOk⟩ := exists_order_of_base hLists hb
    refine ⟨_, linearize_eq_ok_iff.mpr ⟨l, hOk, rfl⟩, ?_⟩
    rw [← List.filterMap_reverse, List.reverse_reverse]
    exact (hKept l hl).filterMap _
  · obtain ⟨bases, hEach, hNames⟩ := filterMap_baseNames hLists
    exact ⟨bases, hEach, hNames ▸ hBases.filterMap _⟩

/-- If a contract has an order, then nothing that it extends is a reason to fail. -/
theorem not_blocks_of_linearize {i : Index} {name : String} {chain : List Contract} {c : Contract}
    (h : i.linearize name = .ok chain) (hReach : i.Reaches name c) : ¬ i.Blocks c := by
  obtain ⟨first, hFirst, hPath⟩ := hReach
  have hc : c ∈ chain := (mem_linearize_iff h hFirst).mpr hPath
  obtain ⟨found, hOrder, rfl⟩ := linearize_eq_ok_iff.mp h
  obtain ⟨_, hSelf⟩ := (mem_chain_iff hOrder).mp hc
  obtain ⟨lists, merged, hOwn, _, hLists, hMerge⟩ := own_order_of_mem hOrder hc
  rintro (⟨b, hb, hNone⟩ | hCycle | ⟨_, hConflict⟩)
  · obtain ⟨d, hFound, _⟩ := exists_order_of_base hLists hb
    rw [hNone] at hFound
    cases hFound
  · exact not_transGen_self hSelf hOwn hCycle
  · exact hConflict ⟨_, agrees_of_order hSelf hOwn hLists hMerge⟩

/-- The order of the names fails exactly where the chain of the contracts does. -/
theorem order_eq_error_iff {i : Index} {name : String} {e : Error} :
    i.order name = .error e ↔ i.linearize name = .error e := by
  rw [linearize_eq]
  cases i.order name with
  | ok found => simp [Except.map]
  | error e' => simp [Except.map]

/-- There is no order exactly when there is no contract or a contract that is reached blocks the
search. -/
theorem linearize_eq_error_iff {i : Index} {name : String} :
    (∃ e, i.linearize name = .error e) ↔
      i.contract? name = none ∨ ∃ c, i.Reaches name c ∧ i.Blocks c := by
  constructor
  · rintro ⟨e, h⟩
    exact blocks_of_ancestors_eq_error le_rfl (isActive_nil i)
      (fun a ha => absurd ha List.not_mem_nil) (order_eq_error_iff.mpr h)
  · intro hReason
    cases hResult : i.linearize name with
    | error e => exact ⟨e, rfl⟩
    | ok chain =>
        rcases hReason with hNone | ⟨c, hReach, hBlocks⟩
        · obtain ⟨c, _, hFound, _⟩ := linearize_eq_append hResult
          rw [hNone] at hFound
          cases hFound
        · exact absurd hBlocks (not_blocks_of_linearize hResult hReach)

/-- The search for an order ends on every outline and for every name. There is no order exactly when
the name or the name of a base that is reached stands for nothing, when a contract that is reached
inherits itself, or when no order of what a contract that is reached inherits agrees with its bases.
All failures are of one kind. -/
theorem linearize_fails_iff (i : Index) (name : String) :
    (∃ result, i.SearchesTo [] name result ∧
      i.linearize name = result.map fun found => found.reverse.filterMap i.contract?) ∧
    ((∃ e, i.linearize name = .error e) ↔
      (i.contract? name = none ∨
        ∃ c, i.Reaches name c ∧ ∃ b ∈ c.bases, i.contract? b.name = none) ∨
      (∃ c, i.Reaches name c ∧ Relation.TransGen i.Extends c c) ∨
      ∃ c, i.Reaches name c ∧ i.Conflicts c) ∧
    ((∃ chain, i.linearize name = .ok chain) ∨
      ∃ contract message, i.linearize name = .error (.inheritance contract message)) := by
  refine ⟨⟨_, searchesTo_ancestors (isActive_nil i) name, linearize_eq i name⟩, ?_, ?_⟩
  · rw [linearize_eq_error_iff, or_assoc]
    simp only [Blocks, and_or_left, exists_or]
  · cases hResult : i.linearize name with
    | ok chain => exact .inl ⟨chain, rfl⟩
    | error e =>
        obtain ⟨contract, message, rfl⟩ :=
          inheritance_of_ancestors_eq_error (order_eq_error_iff.mpr hResult)
        exact .inr ⟨contract, message, rfl⟩

end SolNorm.Index
