import SolNorm.Proofs.Ancestry

/-!
The merge of several lists into one. Every list is kept in its order. The merge stops early only
when it has to: as long as some order without repetitions agrees with all lists, there is a head
that can be taken.
-/

namespace SolNorm.Index

/-- The loop of a merge without a bound on its rounds. Names are taken until every list is empty or
no head can be taken. -/
inductive MergesTo : List (List String) → Option (List String) → Prop where
  | done {lists : List (List String)} (hEmpty : lists.all List.isEmpty = true) :
      MergesTo lists (some [])
  | stuck {lists : List (List String)} (hLeft : lists.all List.isEmpty = false)
      (hNone : nextHead? lists = none) : MergesTo lists none
  | step {lists : List (List String)} {head : String} {rest : Option (List String)}
      (hHead : nextHead? lists = some head) (hRest : MergesTo (dropHead head lists) rest) :
      MergesTo lists (rest.map (head :: ·))

/-- Taking a head away leaves each list as it is or without its first name. -/
theorem mem_dropHead {lists : List (List String)} {head : String} {list : List String}
    (h : list ∈ dropHead head lists) :
    ∃ old ∈ lists, list = old ∨ old = head :: list := by
  obtain ⟨old, hOld, rfl⟩ := List.mem_map.mp h
  refine ⟨old, hOld, ?_⟩
  cases old with
  | nil => simp
  | cons first rest =>
      by_cases hFirst : first = head
      · simp [hFirst]
      · simp [hFirst]

/-- Every step of the merge takes a name away. -/
theorem length_flatten_dropHead_lt {lists : List (List String)} {head : String}
    (h : nextHead? lists = some head) :
    (dropHead head lists).flatten.length < lists.flatten.length := by
  obtain ⟨⟨list, hList, hMem⟩, hFree⟩ := nextHead?_eq_some h
  have hOne (l : List String) : (if l.head? == some head then l.tail else l).length ≤ l.length := by
    split <;> simp
  have hLess : (if list.head? == some head then list.tail else list).length < list.length := by
    cases list with
    | nil => cases hMem
    | cons first rest =>
        have hFirst : first = head := by
          rcases List.mem_cons.mp hMem with hSame | hTail
          · exact hSame.symm
          · exact absurd hTail (hFree _ hList)
        simp [hFirst]
  rw [List.length_flatten, List.length_flatten, dropHead, List.map_map]
  exact List.sum_lt_sum _ _ (fun l _ => hOne l) ⟨list, hList, hLess⟩

theorem merge?_succ {n : Nat} {lists : List (List String)}
    (h : lists.all List.isEmpty = false) :
    merge? (n + 1) lists =
      (nextHead? lists).bind fun head => (merge? n (dropHead head lists)).map (head :: ·) := by
  rw [merge?, if_neg (by simp [h])]
  cases nextHead? lists with
  | none => rfl
  | some head => cases hRest : merge? n (dropHead head lists) <;> simp [hRest]

theorem merge?_of_all_isEmpty {n : Nat} {lists : List (List String)}
    (h : lists.all List.isEmpty = true) : merge? n lists = some [] := by
  cases n <;> simp only [merge?, h, if_true]

theorem all_isEmpty_of_length {lists : List (List String)} (h : lists.flatten.length = 0) :
    lists.all List.isEmpty = true := by
  rw [List.length_eq_zero_iff, List.flatten_eq_nil_iff] at h
  simpa using h

/-- The sum of the lengths is bound enough: the loop ends by itself. -/
theorem mergesTo_merge? {n : Nat} {lists : List (List String)}
    (hBound : lists.flatten.length ≤ n) : MergesTo lists (merge? n lists) := by
  induction n generalizing lists with
  | zero =>
      have hEmpty := all_isEmpty_of_length (Nat.le_zero.mp hBound)
      rw [merge?_of_all_isEmpty hEmpty]
      exact .done hEmpty
  | succ n ih =>
      cases hEmpty : lists.all List.isEmpty with
      | true =>
          rw [merge?_of_all_isEmpty hEmpty]
          exact .done hEmpty
      | false =>
          rw [merge?_succ hEmpty]
          cases hHead : nextHead? lists with
          | none => exact .stuck hEmpty hHead
          | some head =>
              have hLess := length_flatten_dropHead_lt hHead
              exact .step hHead (ih (by omega))

/-- The run: every list is in the merged one, in its order. -/
theorem sublist_of_merge? {n : Nat} {lists : List (List String)} {order : List String}
    (h : merge? n lists = some order) {list : List String} (hList : list ∈ lists) :
    list.Sublist order := by
  induction n generalizing lists order list with
  | zero =>
      simp only [merge?, Option.ite_none_right_eq_some, List.all_eq_true] at h
      rw [List.isEmpty_iff.mp (h.1 list hList)]
      exact List.nil_sublist _
  | succ n ih =>
      cases hEmpty : lists.all List.isEmpty with
      | true =>
          rw [List.isEmpty_iff.mp (List.all_eq_true.mp hEmpty list hList)]
          exact List.nil_sublist _
      | false =>
          rw [merge?_succ hEmpty] at h
          obtain ⟨head, hHead, h⟩ := Option.bind_eq_some_iff.mp h
          obtain ⟨rest, hRest, rfl⟩ := Option.map_eq_some_iff.mp h
          have hKept := ih hRest (List.mem_map_of_mem hList)
          cases list with
          | nil => exact List.nil_sublist _
          | cons first tail =>
              by_cases hFirst : first = head
              · subst hFirst
                simp only [List.head?_cons, beq_self_eq_true, if_true, List.tail_cons] at hKept
                exact hKept.cons_cons first
              · simp only [List.head?_cons, beq_iff_eq, Option.some.injEq, hFirst, if_false] at hKept
                exact hKept.cons head

/-- As long as one order agrees with all lists, a head can be taken. The first name of the order
that some list still holds is one. -/
theorem exists_nextHead? {lists : List (List String)} {order : List String} (hNodup : order.Nodup)
    (hAgree : ∀ list ∈ lists, list.Sublist order) (hLeft : lists.all List.isEmpty = false) :
    ∃ head, nextHead? lists = some head := by
  induction order with
  | nil =>
      have hEmpty : lists.all List.isEmpty = true := by
        simpa using hAgree
      simp [hEmpty] at hLeft
  | cons first rest ih =>
      obtain ⟨hFirst, hRest⟩ := List.nodup_cons.mp hNodup
      by_cases hHeld : ∃ list ∈ lists, first ∈ list
      · -- Nothing but the head of a list can be the first name of the order.
        obtain ⟨list, hList, hMem⟩ := hHeld
        have hFree : ∀ other ∈ lists, first ∉ other.tail := fun other hOther hTail =>
          hFirst ((hAgree other hOther).tail.subset hTail)
        have hHead : list.head? = some first := by
          cases list with
          | nil => cases hMem
          | cons x tail =>
              rcases List.mem_cons.mp hMem with rfl | hTail
              · rfl
              · exact absurd hTail (hFree _ hList)
        apply Option.isSome_iff_exists.mp
        rw [nextHead?, List.find?_isSome]
        refine ⟨first, List.mem_filterMap.mpr ⟨list, hList, hHead⟩, ?_⟩
        simpa using hFree
      · refine ih hRest fun list hList => ?_
        rcases List.sublist_cons_iff.mp (hAgree list hList) with hSub | ⟨tail, rfl, _⟩
        · exact hSub
        · exact absurd ⟨_, hList, List.mem_cons_self⟩ hHeld

/-- Lists that agree with one order without repetitions can be merged. -/
theorem exists_merge? {n : Nat} {lists : List (List String)} {order : List String}
    (hBound : lists.flatten.length ≤ n) (hNodup : order.Nodup)
    (hAgree : ∀ list ∈ lists, list.Sublist order) : ∃ merged, merge? n lists = some merged := by
  induction n generalizing lists with
  | zero => exact ⟨[], merge?_of_all_isEmpty (all_isEmpty_of_length (Nat.le_zero.mp hBound))⟩
  | succ n ih =>
      cases hEmpty : lists.all List.isEmpty with
      | true => exact ⟨[], merge?_of_all_isEmpty hEmpty⟩
      | false =>
          obtain ⟨head, hHead⟩ := exists_nextHead? hNodup hAgree hEmpty
          have hLess := length_flatten_dropHead_lt hHead
          have hNext : ∀ list ∈ dropHead head lists, list.Sublist order := by
            intro list hList
            obtain ⟨old, hOld, rfl | rfl⟩ := mem_dropHead hList
            · exact hAgree list hOld
            · exact (List.sublist_cons_self head list).trans (hAgree _ hOld)
          obtain ⟨merged, hMerged⟩ := ih (by omega) hNext
          exact ⟨head :: merged, by simp [merge?_succ hEmpty, hHead, hMerged]⟩

end SolNorm.Index
