import SolNorm.Index.Linearization
import SolNorm.Proofs.Outcome

/-!
What the order of a contract's ancestors is made of. Whenever there is an order, it ends with the
contract itself, no name occurs in it twice, and every entry is the contract that its name stands
for.
-/

namespace SolNorm

open Outline

/-- The last part of a name has no dot, so it is its own last part. -/
theorem lastSegment_lastSegment (name : String) :
    lastSegment (lastSegment name) = lastSegment name := by
  simp [lastSegment, List.takeWhile_idem]

namespace Index

/-- A contract that is found has the last part of the name that it was looked for by. -/
theorem name_of_contract? {i : Index} {name : String} {c : Contract}
    (h : i.contract? name = some c) : c.name = lastSegment name := by
  have hName := List.find?_some h
  simpa using hName

/-- A contract that is found is found again by its own name. -/
theorem contract?_name {i : Index} {name : String} {c : Contract}
    (h : i.contract? name = some c) : i.contract? c.name = some c := by
  rw [contract?, name_of_contract? h, lastSegment_lastSegment]
  exact h

theorem mem_contracts_of_contract? {i : Index} {name : String} {c : Contract}
    (h : i.contract? name = some c) : c ∈ i.contracts :=
  List.mem_of_find?_eq_some h

/-- The contract that has to be there is the one that is found. -/
theorem contract_eq_ok_iff {i : Index} {name : String} {c : Contract} :
    i.contract name = .ok c ↔ i.contract? name = some c := by
  unfold contract
  split <;> simp_all

/-- The next name heads one of the lists, and no list holds it behind its head. -/
theorem nextHead?_eq_some {lists : List (List String)} {head : String}
    (h : nextHead? lists = some head) :
    (∃ list ∈ lists, head ∈ list) ∧ ∀ list ∈ lists, head ∉ list.tail := by
  have hFree := List.find?_some h
  obtain ⟨list, hList, hHead⟩ := List.mem_filterMap.mp (List.mem_of_find?_eq_some h)
  refine ⟨⟨list, hList, List.mem_of_mem_head? hHead⟩, fun other hOther hTail => ?_⟩
  simp only [Bool.not_eq_true', List.any_eq_false, List.contains_iff_mem] at hFree
  exact hFree other hOther hTail

/-- Taking away a name that no list holds behind its head takes it away altogether, and nothing
else. -/
theorem mem_dropHead_iff {lists : List (List String)} {head name : String}
    (hFree : ∀ list ∈ lists, head ∉ list.tail) :
    (∃ list ∈ dropHead head lists, name ∈ list) ↔ name ≠ head ∧ ∃ list ∈ lists, name ∈ list := by
  have hOne (list : List String) (hList : list ∈ lists) :
      name ∈ (if list.head? == some head then list.tail else list) ↔
        name ≠ head ∧ name ∈ list := by
    have hTail := hFree list hList
    cases list with
    | nil => simp
    | cons first rest =>
        by_cases hFirst : first = head
        · subst hFirst
          simp only [List.head?_cons, beq_self_eq_true, if_true, List.tail_cons, List.mem_cons]
          exact ⟨fun h => ⟨fun hEq => hTail (hEq ▸ h), .inr h⟩, fun h => h.2.resolve_left h.1⟩
        · have hNot : (some first == some head) = false := by simpa using hFirst
          simp only [List.head?_cons, hNot, Bool.false_eq_true, if_false]
          refine ⟨fun h => ⟨fun hEq => ?_, h⟩, And.right⟩
          rw [hEq, List.mem_cons] at h
          exact h.elim (fun hHead => hFirst hHead.symm) hTail
  simp only [dropHead, List.mem_map, exists_exists_and_eq_and]
  constructor
  · rintro ⟨list, hList, hName⟩
    exact ⟨((hOne list hList).mp hName).1, list, hList, ((hOne list hList).mp hName).2⟩
  · rintro ⟨hNe, list, hList, hName⟩
    exact ⟨list, hList, (hOne list hList).mpr ⟨hNe, hName⟩⟩

/-- A merge holds every name of the lists, and each of them once. It does not matter whether the
lists themselves repeat a name. -/
theorem merge?_eq_some {n : Nat} {lists : List (List String)} {order : List String}
    (h : merge? n lists = some order) :
    order.Nodup ∧ ∀ name, name ∈ order ↔ ∃ list ∈ lists, name ∈ list := by
  have hDone {lists : List (List String)} (hEmpty : lists.all List.isEmpty = true)
      (name : String) : ¬ ∃ list ∈ lists, name ∈ list := by
    rintro ⟨list, hList, hName⟩
    have hNil := List.all_eq_true.mp hEmpty list hList
    rw [List.isEmpty_iff] at hNil
    simp [hNil] at hName
  induction n generalizing lists order with
  | zero =>
      simp only [merge?, Option.ite_none_right_eq_some, Option.some.injEq] at h
      obtain ⟨hEmpty, rfl⟩ := h
      exact ⟨List.nodup_nil, fun name => by simp [hDone hEmpty name]⟩
  | succ n ih =>
      rw [merge?] at h
      split at h
      · rename_i hEmpty
        cases h
        exact ⟨List.nodup_nil, fun name => by simp [hDone hEmpty name]⟩
      · simp only [Option.bind_eq_bind, Option.bind_eq_some_iff, Option.pure_def,
          Option.some.injEq] at h
        obtain ⟨head, hHead, rest, hRest, rfl⟩ := h
        obtain ⟨hListed, hFree⟩ := nextHead?_eq_some hHead
        obtain ⟨hNodup, hMem⟩ := ih hRest
        have hRestMem (name : String) :
            name ∈ rest ↔ name ≠ head ∧ ∃ list ∈ lists, name ∈ list := by
          rw [hMem name, mem_dropHead_iff hFree]
        refine ⟨List.nodup_cons.mpr ⟨fun hAgain => ((hRestMem head).mp hAgain).1 rfl, hNodup⟩, ?_⟩
        intro name
        rw [List.mem_cons, hRestMem name]
        by_cases hName : name = head
        · simpa [hName] using hListed
        · simp [hName]

/-- What is known of the names of a contract's ancestors while others are still looked for: they start
with its own, none of them is there twice or is looked for, and each of them is that of a contract. -/
structure IsAncestry (i : Index) (active : List String) (name : String) (order : List String) :
    Prop where
  nodup : order.Nodup
  inactive : ∀ x ∈ order, x ∉ active
  known : ∀ x ∈ order, ∃ c, i.contract? x = some c ∧ c.name = x
  head : ∃ c rest, i.contract? name = some c ∧ order = c.name :: rest

/-- The ancestors of a contract are found by merging those of its bases. -/
theorem IsAncestry.step {i : Index} {n : Nat} {active : List String} {name : String} {c : Contract}
    {bases merged : List String} {lists : List (List String)} (hFound : i.contract? name = some c)
    (hActive : c.name ∉ active)
    (hBases : List.Forall₂ (i.IsAncestry (c.name :: active)) bases lists)
    (hMerge : merge? n (lists ++ [bases.map lastSegment]) = some merged) :
    i.IsAncestry active name (c.name :: merged) := by
  obtain ⟨hNodup, hMem⟩ := merge?_eq_some hMerge
  -- A merged name is an ancestor of a base: the bases are named with dots, but the orders of their
  -- ancestors start with their last parts.
  have hAncestor : ∀ x ∈ merged, ∃ base list, x ∈ list ∧ i.IsAncestry (c.name :: active) base list := by
    intro x hx
    obtain ⟨list, hList, hIn⟩ := (hMem x).mp hx
    rcases List.mem_append.mp hList with hList | hList
    · obtain ⟨base, _, hBase⟩ := Outcome.exists_left_of_mem hBases hList
      exact ⟨base, list, hIn, hBase⟩
    · rw [List.mem_singleton.mp hList] at hIn
      obtain ⟨base, hBase, rfl⟩ := List.mem_map.mp hIn
      obtain ⟨list, _, hOrder⟩ := Outcome.exists_right_of_mem hBases hBase
      obtain ⟨b, rest, hFound', rfl⟩ := hOrder.head
      exact ⟨base, _, by simp [name_of_contract? hFound'], hOrder⟩
  refine ⟨List.nodup_cons.mpr ⟨fun hSelf => ?_, hNodup⟩, ?_, ?_, c, merged, hFound, rfl⟩
  · obtain ⟨base, list, hIn, hOrder⟩ := hAncestor _ hSelf
    exact hOrder.inactive _ hIn List.mem_cons_self
  · intro x hx
    rcases List.mem_cons.mp hx with rfl | hx
    · exact hActive
    · obtain ⟨base, list, hIn, hOrder⟩ := hAncestor x hx
      exact fun hMem => hOrder.inactive x hIn (List.mem_cons_of_mem _ hMem)
  · intro x hx
    rcases List.mem_cons.mp hx with rfl | hx
    · exact ⟨c, contract?_name hFound, rfl⟩
    · obtain ⟨base, list, hIn, hOrder⟩ := hAncestor x hx
      exact hOrder.known x hIn

/-- The run: the search gives an ancestry, by induction on the bound. -/
theorem isAncestry_of_ancestors {i : Index} {n : Nat} {active : List String} {name : String}
    {order : List String} (h : i.ancestors n active name = .ok order) :
    i.IsAncestry active name order := by
  induction n generalizing active name order with
  | zero => simp [ancestors] at h
  | succ n ih =>
      rw [ancestors] at h
      cases hFound : i.contract? name with
      | none =>
          rw [hFound] at h
          exact (Outcome.throw_eq_ok_iff.mp h).elim
      | some c =>
          simp only [hFound] at h
          split at h
          · rw [Outcome.throw_bind, Outcome.throw_eq_ok_iff] at h
            exact h.elim
          · rename_i hActive
            obtain ⟨lists, hLists, h⟩ := Outcome.bind_eq_ok_iff.mp h
            split at h
            · rename_i merged hMerge
              rw [Outcome.pure_eq_ok_iff] at h
              subst h
              refine IsAncestry.step hFound (by simpa using hActive) ?_ hMerge
              exact (Outcome.mapM_eq_ok_iff.mp hLists).imp fun _ _ hOk => ih hOk
            · exact (Outcome.throw_eq_ok_iff.mp h).elim

/-- An order of contracts is the order of their names backwards, and every contract in it is the one
that its name stands for. -/
theorem forall₂_of_linearize {i : Index} {name : String} {chain : List Contract}
    (h : i.linearize name = .ok chain) :
    ∃ order, i.ancestors (i.contracts.length + 1) [] name = .ok order ∧
      List.Forall₂ (fun x c => i.contract? x = some c ∧ c.name = x) order.reverse chain := by
  obtain ⟨order, hOrder, hChain⟩ := Outcome.bind_eq_ok_iff.mp h
  have hNames := (isAncestry_of_ancestors hOrder).known
  refine ⟨order, hOrder, ?_⟩
  have hBoth := (List.forall₂_and_left _ _).mpr
    ⟨fun x hx => hNames x (List.mem_reverse.mp hx), Outcome.mapM_eq_ok_iff.mp hChain⟩
  refine hBoth.imp ?_
  rintro x c ⟨⟨d, hFound, hName⟩, hOk⟩
  rw [contract_eq_ok_iff, hFound, Option.some.injEq] at hOk
  exact hOk ▸ ⟨hFound, hName⟩

/-- No two contracts of an order have the same name. -/
theorem nodup_of_linearize {i : Index} {name : String} {chain : List Contract}
    (h : i.linearize name = .ok chain) : (chain.map Contract.name).Nodup := by
  obtain ⟨order, hOrder, hEach⟩ := forall₂_of_linearize h
  have hMap : order.reverse = chain.map Contract.name := by
    rw [← List.forall₂_eq_eq_eq, List.forall₂_map_right_iff]
    exact hEach.imp fun x c hx => hx.2.symm
  rw [← hMap, List.nodup_reverse]
  exact (isAncestry_of_ancestors hOrder).nodup

/-- A contract of an order is the one that its name stands for. -/
theorem contract?_of_mem_linearize {i : Index} {name : String} {chain : List Contract}
    (h : i.linearize name = .ok chain) {c : Contract} (hc : c ∈ chain) :
    i.contract? c.name = some c := by
  obtain ⟨order, _, hChain⟩ := Outcome.bind_eq_ok_iff.mp h
  obtain ⟨x, _, hOk⟩ := Outcome.exists_of_mem_result hChain hc
  exact contract?_name (contract_eq_ok_iff.mp hOk)

/-- The order of a contract's ancestors ends with the contract itself. -/
theorem linearize_eq_append {i : Index} {name : String} {chain : List Contract}
    (h : i.linearize name = .ok chain) :
    ∃ c bases, i.contract? name = some c ∧ chain = bases ++ [c] := by
  obtain ⟨order, hOrder, hEach⟩ := forall₂_of_linearize h
  obtain ⟨c, rest, hFound, rfl⟩ := (isAncestry_of_ancestors hOrder).head
  rw [← List.reverse_reverse chain, List.forall₂_reverse_iff] at hEach
  obtain ⟨d, bases, ⟨hSelf, _⟩, _, hReverse⟩ := List.forall₂_cons_left_iff.mp hEach
  have hSame : d = c := by
    rw [contract?_name hFound, Option.some.injEq] at hSelf
    exact hSelf.symm
  refine ⟨c, bases.reverse, hFound, ?_⟩
  rw [← List.reverse_reverse chain, hReverse, List.reverse_cons, hSame]

end Index

end SolNorm
