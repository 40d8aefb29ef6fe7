import SolNorm.Proofs.Linearization.Merge

/-!
What an order of a contract's ancestors means. Whenever there is one, it holds the contract and
everything that it inherits, directly or through others, and nothing twice; bases stand before the
contracts that name them, in the order in which they are named; and the order of every base is kept
in it.
-/

namespace SolNorm.Index

open Outline

/-- One contract names another one among its bases. -/
def Extends (i : Index) (c d : Contract) : Prop := ∃ b ∈ c.bases, i.contract? b.name = some d

/-- The bases of a contract as they are written, from the last to the first. -/
def baseNames (c : Contract) : List String := c.bases.reverse.map Invocation.name

/-- The names that come behind that of a contract, from the orders of its bases. -/
def mergeBases? (c : Contract) (lists : List (List String)) : Option (List String) :=
  let all := lists ++ [(baseNames c).map lastSegment]
  merge? all.flatten.length all

/-- The names of a contract's ancestors, its own first. -/
def order (i : Index) (name : String) : Except Error (List String) :=
  i.ancestors (i.contracts.length + 1) [] name

/-- Contracts that are found under their names are told apart by them. -/
theorem eq_of_name_eq {i : Index} {c d : Contract} (hc : i.contract? c.name = some c)
    (hd : i.contract? d.name = some d) (hName : c.name = d.name) : c = d := by
  rw [hName, hd, Option.some.injEq] at hc
  exact hc.symm

/-- The last contract of an order is found under its name. -/
theorem contract?_of_linearize {i : Index} {name : String} {c : Contract} {bases : List Contract}
    (h : i.linearize name = .ok (bases ++ [c])) : i.contract? c.name = some c :=
  contract?_of_mem_linearize h (List.mem_append_right _ (List.mem_singleton_self c))

/-- A base that is not defined ends the search. -/
theorem ancestors_of_undefined {i : Index} {n : Nat} {active : List String} {name : String}
    (hNone : i.contract? name = none) :
    i.ancestors (n + 1) active name = .error (.undefinedBase (active.headD name) name) := by
  rw [ancestors, hNone]
  rfl

/-- A contract that is still looked for is among its own ancestors. -/
theorem ancestors_of_active {i : Index} {n : Nat} {active : List String} {name : String}
    {c : Contract} (hFound : i.contract? name = some c) (hActive : c.name ∈ active) :
    i.ancestors (n + 1) active name = .error (.inheritanceCycle c.name) := by
  rw [ancestors]
  simp only [hFound, List.contains_iff_mem.mpr hActive, if_true]
  rfl

/-- The search merges the orders of the bases and puts the contract in front. -/
theorem ancestors_of_found {i : Index} {n : Nat} {active : List String} {name : String}
    {c : Contract} (hFound : i.contract? name = some c) (hActive : c.name ∉ active) :
    i.ancestors (n + 1) active name =
      ((baseNames c).mapM (i.ancestors n (c.name :: active))).bind fun lists =>
        match mergeBases? c lists with
        | some merged => .ok (c.name :: merged)
        | none => .error (.noLinearization c.name) := by
  have hNot : ¬ active.contains c.name = true := by simpa using hActive
  rw [ancestors]
  simp only [hFound, if_neg hNot]
  rfl

/-- A search succeeds exactly when the contract is there, is not looked for already, and the orders of
its bases are found and can be merged. -/
theorem ancestors_eq_ok_iff {i : Index} {n : Nat} {active : List String} {name : String}
    {found : List String} :
    i.ancestors (n + 1) active name = .ok found ↔
      ∃ c lists merged, i.contract? name = some c ∧ c.name ∉ active ∧
        List.Forall₂ (fun b l => i.ancestors n (c.name :: active) b = .ok l) (baseNames c) lists ∧
        mergeBases? c lists = some merged ∧ found = c.name :: merged := by
  constructor
  · intro h
    cases hFound : i.contract? name with
    | none => simp [ancestors_of_undefined hFound] at h
    | some c =>
        by_cases hActive : c.name ∈ active
        · simp [ancestors_of_active hFound hActive] at h
        · rw [ancestors_of_found hFound hActive] at h
          obtain ⟨lists, hLists, h⟩ := Outcome.bind_eq_ok_iff.mp h
          cases hMerge : mergeBases? c lists with
          | none => simp [hMerge] at h
          | some merged =>
              simp only [hMerge, Except.ok.injEq] at h
              exact ⟨c, lists, merged, rfl, hActive, Outcome.mapM_eq_ok_iff.mp hLists, hMerge, h.symm⟩
  · rintro ⟨c, lists, merged, hFound, hActive, hLists, hMerge, rfl⟩
    rw [ancestors_of_found hFound hActive, Outcome.mapM_eq_ok_iff.mpr hLists]
    simp [Except.bind, hMerge]

/-- The bound and the contracts that are looked for already can only make a search fail. -/
theorem ancestors_mono {i : Index} {n m : Nat} {active active' : List String} {name : String}
    {found : List String} (h : i.ancestors n active name = .ok found) (hBound : n ≤ m)
    (hActive : active' ⊆ active) : i.ancestors m active' name = .ok found := by
  induction n generalizing m active active' name found with
  | zero => simp [ancestors] at h
  | succ n ih =>
      obtain ⟨c, lists, merged, hFound, hNew, hLists, hMerge, rfl⟩ := ancestors_eq_ok_iff.mp h
      obtain ⟨k, rfl⟩ : ∃ k, m = k + 1 := ⟨m - 1, by omega⟩
      refine ancestors_eq_ok_iff.mpr ⟨c, lists, merged, hFound, fun hMem => hNew (hActive hMem),
        hLists.imp fun b l hb => ?_, hMerge, rfl⟩
      exact ih hb (by omega) (List.cons_subset_cons _ hActive)

/-- The run of a search: what a contract has whenever all its bases have it, every contract has whose
ancestors have an order. -/
theorem order_induction {i : Index} {motive : String → List String → Prop}
    (hStep : ∀ name c lists merged, i.contract? name = some c →
      i.order name = .ok (c.name :: merged) →
      List.Forall₂ (fun b l => i.order b = .ok l ∧ motive b l) (baseNames c) lists →
      mergeBases? c lists = some merged → motive name (c.name :: merged))
    {name : String} {found : List String} (h : i.order name = .ok found) : motive name found := by
  have hRun (n : Nat) (hBound : n ≤ i.contracts.length + 1) (active : List String) (name : String)
      (found : List String) (h : i.ancestors n active name = .ok found) : motive name found := by
    induction n generalizing active name found with
    | zero => simp [ancestors] at h
    | succ n ih =>
        have hOrder : i.order name = .ok found := ancestors_mono h hBound (by simp)
        obtain ⟨c, lists, merged, hFound, _, hLists, hMerge, rfl⟩ := ancestors_eq_ok_iff.mp h
        refine hStep name c lists merged hFound hOrder (hLists.imp fun b l hb => ?_) hMerge
        exact ⟨ancestors_mono hb (by omega) (by simp), ih (by omega) _ b l hb⟩
  exact hRun _ le_rfl [] name found h

/-- The order of a contract's ancestors is made from those of its bases. -/
theorem order_eq_ok {i : Index} {name : String} {found : List String}
    (h : i.order name = .ok found) :
    ∃ c lists merged, i.contract? name = some c ∧
      List.Forall₂ (fun b l => i.order b = .ok l) (baseNames c) lists ∧
      mergeBases? c lists = some merged ∧ found = c.name :: merged := by
  obtain ⟨c, lists, merged, hFound, _, hLists, hMerge, rfl⟩ := ancestors_eq_ok_iff.mp h
  refine ⟨c, lists, merged, hFound, hLists.imp fun b l hb => ?_, hMerge, rfl⟩
  exact ancestors_mono hb (by omega) (by simp)

theorem order_congr {i : Index} {a b : String} {c : Contract} (ha : i.contract? a = some c)
    (hb : i.contract? b = some c) : i.order a = i.order b := by
  rw [order, order, ancestors_of_found ha (by simp), ancestors_of_found hb (by simp)]

theorem mem_baseNames {c : Contract} {b : String} :
    b ∈ baseNames c ↔ ∃ base ∈ c.bases, base.name = b := by
  simp [baseNames]

/-- The names behind that of a contract: each once, and all that its bases have. The orders of the
bases are kept, and so is the order of the bases themselves. -/
theorem mergeBases?_eq_some {c : Contract} {lists : List (List String)} {merged : List String}
    (h : mergeBases? c lists = some merged) :
    merged.Nodup ∧ (∀ l ∈ lists, l.Sublist merged) ∧
      ((baseNames c).map lastSegment).Sublist merged ∧
      ∀ x ∈ merged, (∃ l ∈ lists, x ∈ l) ∨ x ∈ (baseNames c).map lastSegment := by
  obtain ⟨hNodup, hMem⟩ := merge?_eq_some h
  refine ⟨hNodup, fun l hl => ?_, ?_, fun x hx => ?_⟩
  · exact sublist_of_merge? h (List.mem_append_left _ hl)
  · exact sublist_of_merge? h (List.mem_append_right _ (List.mem_singleton_self _))
  · obtain ⟨l, hl, hxl⟩ := (hMem x).mp hx
    rcases List.mem_append.mp hl with hl | hl
    · exact .inl ⟨l, hl, hxl⟩
    · exact .inr (List.mem_singleton.mp hl ▸ hxl)

/-- What is merged comes from the order of a base. -/
theorem exists_base_of_mem {i : Index} {c : Contract} {lists : List (List String)}
    {merged : List String} {x : String} {R : String → List String → Prop}
    (hOrders : ∀ b l, R b l → i.order b = .ok l) (hLists : List.Forall₂ R (baseNames c) lists)
    (hMerge : mergeBases? c lists = some merged) (hx : x ∈ merged) :
    ∃ b ∈ baseNames c, ∃ l ∈ lists, R b l ∧ x ∈ l := by
  obtain ⟨_, _, _, hOrigin⟩ := mergeBases?_eq_some hMerge
  rcases hOrigin x hx with ⟨l, hl, hxl⟩ | hBase
  · obtain ⟨b, hb, hOk⟩ := Outcome.exists_left_of_mem hLists hl
    exact ⟨b, hb, l, hl, hOk, hxl⟩
  · -- A base is written with dots, but its order starts with the last part of its name.
    obtain ⟨b, hb, rfl⟩ := List.mem_map.mp hBase
    obtain ⟨l, hl, hOk⟩ := Outcome.exists_right_of_mem hLists hb
    obtain ⟨d, _, rest, hFound, _, _, rfl⟩ := order_eq_ok (hOrders b l hOk)
    exact ⟨b, hb, _, hl, hOk, by simp [name_of_contract? hFound]⟩

/-- Every base of a contract with an order has one. -/
theorem exists_order_of_base {i : Index} {c : Contract} {lists : List (List String)}
    {b : Invocation} (hLists : List.Forall₂ (fun b l => i.order b = .ok l) (baseNames c) lists)
    (hb : b ∈ c.bases) :
    ∃ d, i.contract? b.name = some d ∧ ∃ l ∈ lists, i.order b.name = .ok l := by
  obtain ⟨l, hl, hOk⟩ := Outcome.exists_right_of_mem hLists (mem_baseNames.mpr ⟨b, hb, rfl⟩)
  obtain ⟨d, _, _, hFound, _⟩ := order_eq_ok hOk
  exact ⟨d, hFound, l, hl, hOk⟩

/-- Every name of an order has an order itself, which is kept in it. -/
theorem order_sublist {i : Index} {name : String} {found : List String}
    (h : i.order name = .ok found) :
    ∀ x ∈ found, ∃ own, i.order x = .ok own ∧ own.Sublist found := by
  refine order_induction (motive := fun _ found => ∀ x ∈ found, ∃ own, i.order x = .ok own ∧
    own.Sublist found) ?_ h
  intro name c lists merged hFound hOrder hLists hMerge x hx
  obtain ⟨_, hKept, _, _⟩ := mergeBases?_eq_some hMerge
  rcases List.mem_cons.mp hx with rfl | hx
  · exact ⟨_, (order_congr (contract?_name hFound) hFound).trans hOrder, List.Sublist.refl _⟩
  · obtain ⟨b, _, l, hl, ⟨_, hOwn⟩, hxl⟩ := exists_base_of_mem (fun _ _ hb => hb.1) hLists hMerge hx
    obtain ⟨own, hOk, hSub⟩ := hOwn x hxl
    exact ⟨own, hOk, (hSub.trans (hKept l hl)).cons c.name⟩

/-- Only contracts that are extended are in the order. -/
theorem reaches_of_mem_order {i : Index} {name : String} {found : List String} {c : Contract}
    (h : i.order name = .ok found) (hFound : i.contract? name = some c) :
    ∀ x ∈ found, ∃ d, i.contract? x = some d ∧ Relation.ReflTransGen i.Extends c d := by
  refine order_induction (motive := fun name found => ∀ c, i.contract? name = some c →
    ∀ x ∈ found, ∃ d, i.contract? x = some d ∧ Relation.ReflTransGen i.Extends c d) ?_ h c hFound
  intro name c lists merged hFound _ hLists hMerge c' hFound' x hx
  obtain rfl : c = c' := Option.some.inj (hFound.symm.trans hFound')
  rcases List.mem_cons.mp hx with rfl | hx
  · exact ⟨c, contract?_name hFound, .refl⟩
  · obtain ⟨b, hb, l, _, ⟨hOk, hReach⟩, hxl⟩ :=
      exists_base_of_mem (fun _ _ hb => hb.1) hLists hMerge hx
    obtain ⟨base, hBase, rfl⟩ := mem_baseNames.mp hb
    obtain ⟨d, _, _, hBaseFound, _⟩ := order_eq_ok hOk
    obtain ⟨e, hFoundE, hPath⟩ := hReach d hBaseFound x hxl
    exact ⟨e, hFoundE, .head ⟨base, hBase, hBaseFound⟩ hPath⟩

/-- With a contract all its bases are in the order. -/
theorem mem_order_of_extends {i : Index} {name : String} {found : List String} {c d : Contract}
    (h : i.order name = .ok found) (hc : c.name ∈ found) (hSelf : i.contract? c.name = some c)
    (hExtends : i.Extends c d) : d.name ∈ found := by
  obtain ⟨own, hOwn, hSub⟩ := order_sublist h c.name hc
  obtain ⟨c', lists, merged, hFound, _, hMerge, rfl⟩ := order_eq_ok hOwn
  obtain rfl : c = c' := Option.some.inj (hSelf.symm.trans hFound)
  obtain ⟨base, hBase, hBaseFound⟩ := hExtends
  obtain ⟨_, _, hBases, _⟩ := mergeBases?_eq_some hMerge
  apply hSub.subset
  apply List.mem_cons_of_mem
  apply hBases.subset
  rw [name_of_contract? hBaseFound]
  exact List.mem_map_of_mem (mem_baseNames.mpr ⟨base, hBase, rfl⟩)

theorem mapM_contract {i : Index} {names : List String}
    (hKnown : ∀ x ∈ names, ∃ c, i.contract? x = some c) :
    names.mapM i.contract = .ok (names.filterMap i.contract?) := by
  induction names with
  | nil => rfl
  | cons x rest ih =>
      obtain ⟨c, hFound⟩ := hKnown x List.mem_cons_self
      rw [List.mapM_cons, contract_eq_ok_iff.mpr hFound,
        ih fun y hy => hKnown y (List.mem_cons_of_mem _ hy), List.filterMap_cons_some hFound]
      rfl

/-- The order of contracts is the order of names backwards. It fails only when there is no order of
names. -/
theorem linearize_eq (i : Index) (name : String) :
    i.linearize name = (i.order name).map fun found => found.reverse.filterMap i.contract? := by
  change (i.order name >>= fun found => found.reverse.mapM i.contract) = _
  cases hOrder : i.order name with
  | error e => rfl
  | ok found =>
      refine mapM_contract fun x hx => ?_
      obtain ⟨c, hFound, _⟩ := (isAncestry_of_ancestors hOrder).known x (List.mem_reverse.mp hx)
      exact ⟨c, hFound⟩

/-- A chain is an order from the back, with the contracts in place of their names. -/
theorem linearize_eq_ok_iff {i : Index} {name : String} {chain : List Contract} :
    i.linearize name = .ok chain ↔
      ∃ found, i.order name = .ok found ∧ found.reverse.filterMap i.contract? = chain := by
  rw [linearize_eq, Outcome.map_eq_ok_iff]

theorem mem_filterMap_iff {i : Index} {name : String} {found names : List String} {d : Contract}
    (h : i.order name = .ok found) (hSub : names ⊆ found) :
    d ∈ names.filterMap i.contract? ↔ d.name ∈ names ∧ i.contract? d.name = some d := by
  rw [List.mem_filterMap]
  constructor
  · rintro ⟨x, hx, hd⟩
    obtain ⟨c, hc, hName⟩ := (isAncestry_of_ancestors h).known x (hSub hx)
    obtain rfl : c = d := Option.some.inj (hc.symm.trans hd)
    exact ⟨hName ▸ hx, contract?_name hd⟩
  · rintro ⟨hMem, hd⟩
    exact ⟨d.name, hMem, hd⟩

/-- A chain holds the contracts whose names are in the order. -/
theorem mem_chain_iff {i : Index} {name : String} {found : List String} {d : Contract}
    (h : i.order name = .ok found) :
    d ∈ found.reverse.filterMap i.contract? ↔ d.name ∈ found ∧ i.contract? d.name = some d := by
  rw [mem_filterMap_iff h (List.reverse_subset.mpr (List.Subset.refl found)), List.mem_reverse]

/-- An order holds a contract and all that it inherits. -/
theorem mem_linearize_iff {i : Index} {name : String} {chain : List Contract} {c d : Contract}
    (h : i.linearize name = .ok chain) (hFound : i.contract? name = some c) :
    d ∈ chain ↔ Relation.ReflTransGen i.Extends c d := by
  obtain ⟨found, hOrder, rfl⟩ := linearize_eq_ok_iff.mp h
  rw [mem_chain_iff hOrder]
  constructor
  · rintro ⟨hMem, hSelf⟩
    obtain ⟨e, hFoundE, hPath⟩ := reaches_of_mem_order hOrder hFound d.name hMem
    obtain rfl : d = e := Option.some.inj (hSelf.symm.trans hFoundE)
    exact hPath
  · intro hPath
    induction hPath with
    | refl =>
        obtain ⟨c', _, _, hFound', _, _, rfl⟩ := order_eq_ok hOrder
        obtain rfl : c = c' := Option.some.inj (hFound.symm.trans hFound')
        exact ⟨List.mem_cons_self, contract?_name hFound⟩
    | tail _ hExtends ih =>
        obtain ⟨hMem, hSelf⟩ := ih
        refine ⟨mem_order_of_extends hOrder hMem hSelf hExtends, ?_⟩
        obtain ⟨_, _, hBase⟩ := hExtends
        exact contract?_name hBase

/-- A contract of an order has an order of its own, which is made from those of its bases and kept in
the order. -/
theorem own_order_of_mem {i : Index} {name : String} {found : List String} {x : Contract}
    (h : i.order name = .ok found) (hx : x ∈ found.reverse.filterMap i.contract?) :
    ∃ lists merged, i.order x.name = .ok (x.name :: merged) ∧ (x.name :: merged).Sublist found ∧
      List.Forall₂ (fun b l => i.order b = .ok l) (baseNames x) lists ∧
      mergeBases? x lists = some merged := by
  obtain ⟨hMem, hSelf⟩ := (mem_chain_iff h).mp hx
  obtain ⟨own, hOwn, hSub⟩ := order_sublist h x.name hMem
  obtain ⟨x', lists, merged, hFound, hLists, hMerge, rfl⟩ := order_eq_ok hOwn
  obtain rfl : x = x' := Option.some.inj (hSelf.symm.trans hFound)
  exact ⟨lists, merged, hOwn, hSub, hLists, hMerge⟩

theorem linearize_of_order {i : Index} {c : Contract} {merged : List String}
    (h : i.order c.name = .ok (c.name :: merged)) (hSelf : i.contract? c.name = some c) :
    i.linearize c.name = .ok (merged.reverse.filterMap i.contract? ++ [c]) := by
  refine linearize_eq_ok_iff.mpr ⟨_, h, ?_⟩
  rw [List.reverse_cons, List.filterMap_append, List.filterMap_cons_some hSelf, List.filterMap_nil]

/-- Every contract of an order has an order itself, which is kept in it. -/
theorem linearize_of_mem {i : Index} {name : String} {chain : List Contract} {x : Contract}
    (h : i.linearize name = .ok chain) (hx : x ∈ chain) :
    ∃ own, i.linearize x.name = .ok (own ++ [x]) ∧ (own ++ [x]).Sublist chain := by
  obtain ⟨found, hOrder, rfl⟩ := linearize_eq_ok_iff.mp h
  obtain ⟨_, merged, hOwn, hSub, _⟩ := own_order_of_mem hOrder hx
  have hOwnChain := linearize_of_order hOwn ((mem_chain_iff hOrder).mp hx).2
  obtain ⟨found', hOwn', hChain⟩ := linearize_eq_ok_iff.mp hOwnChain
  obtain rfl : x.name :: merged = found' := Except.ok.inj (hOwn.symm.trans hOwn')
  exact ⟨_, hOwnChain, hChain ▸ hSub.reverse.filterMap _⟩

theorem contract?_lastSegment (i : Index) (name : String) :
    i.contract? (lastSegment name) = i.contract? name := by
  rw [contract?, contract?, lastSegment_lastSegment]

/-- Bases are merged from the last to the first. -/
theorem filterMap_baseNames {i : Index} {c : Contract} {lists : List (List String)}
    (hLists : List.Forall₂ (fun b l => i.order b = .ok l) (baseNames c) lists) :
    ∃ bases : List Contract, c.bases.map (fun b => i.contract? b.name) = bases.map some ∧
      ((baseNames c).map lastSegment).filterMap i.contract? = bases.reverse := by
  have hKnown : ∀ b ∈ c.bases, ∃ d, i.contract? b.name = some d := by
    intro b hb
    obtain ⟨d, hFound, _⟩ := exists_order_of_base hLists hb
    exact ⟨d, hFound⟩
  refine ⟨c.bases.filterMap fun b => i.contract? b.name, ?_, ?_⟩
  · generalize c.bases = bases at hKnown
    induction bases with
    | nil => rfl
    | cons b rest ih =>
        obtain ⟨d, hd⟩ := hKnown b List.mem_cons_self
        simp [hd, ih fun x hx => hKnown x (List.mem_cons_of_mem _ hx)]
  · simp only [baseNames, List.map_map, List.filterMap_map, List.filterMap_reverse]
    simp [Function.comp_def, contract?_lastSegment]

/-- The bases of a contract of an order stand in it as they are named, and the contract behind
them. -/
theorem bases_sublist_of_mem {i : Index} {name : String} {chain : List Contract} {x : Contract}
    (h : i.linearize name = .ok chain) (hx : x ∈ chain) :
    ∃ bases : List Contract, x.bases.map (fun b => i.contract? b.name) = bases.map some ∧
      (bases ++ [x]).Sublist chain := by
  obtain ⟨found, hOrder, rfl⟩ := linearize_eq_ok_iff.mp h
  obtain ⟨lists, merged, _, hSub, hLists, hMerge⟩ := own_order_of_mem hOrder hx
  obtain ⟨_, _, hBases, _⟩ := mergeBases?_eq_some hMerge
  obtain ⟨bases, hEach, hNames⟩ := filterMap_baseNames hLists
  refine ⟨bases, hEach, ?_⟩
  have hAll := (((hBases.cons_cons x.name).trans hSub).reverse).filterMap i.contract?
  have hSelf := ((mem_chain_iff hOrder).mp hx).2
  rwa [List.reverse_cons, List.filterMap_append, List.filterMap_reverse, hNames,
    List.reverse_reverse, List.filterMap_cons_some hSelf, List.filterMap_nil] at hAll

/-- The order of a base is kept inside the order of what extends it. -/
theorem linearize_base_of_mem {i : Index} {name : String} {chain : List Contract} {x : Contract}
    {b : Invocation} (h : i.linearize name = .ok chain) (hx : x ∈ chain) (hb : b ∈ x.bases) :
    ∃ own, i.linearize b.name = .ok own ∧ own.Sublist chain := by
  obtain ⟨found, hOrder, rfl⟩ := linearize_eq_ok_iff.mp h
  obtain ⟨lists, merged, _, hSub, hLists, hMerge⟩ := own_order_of_mem hOrder hx
  obtain ⟨_, hKept, _, _⟩ := mergeBases?_eq_some hMerge
  obtain ⟨_, _, l, hl, hOk⟩ := exists_order_of_base hLists hb
  refine ⟨_, linearize_eq_ok_iff.mpr ⟨l, hOk, rfl⟩, ?_⟩
  exact (((hKept l hl).cons x.name).trans hSub).reverse.filterMap _

/-- The order of a base is shorter. -/
theorem exists_shorter_of_transGen {i : Index} {c d : Contract} {own : List String}
    (hPath : Relation.TransGen i.Extends c d) (hSelf : i.contract? c.name = some c)
    (h : i.order c.name = .ok own) :
    ∃ other, i.order d.name = .ok other ∧ other.length < own.length := by
  have hStep {c d : Contract} {own : List String} (hSelf : i.contract? c.name = some c)
      (h : i.order c.name = .ok own) (hExtends : i.Extends c d) :
      ∃ other, i.order d.name = .ok other ∧ other.length < own.length := by
    obtain ⟨c', lists, merged, hFound, hLists, hMerge, rfl⟩ := order_eq_ok h
    obtain rfl : c = c' := Option.some.inj (hSelf.symm.trans hFound)
    obtain ⟨base, hBase, hd⟩ := hExtends
    obtain ⟨_, _, l, hl, hOk⟩ := exists_order_of_base hLists hBase
    have hLength := ((mergeBases?_eq_some hMerge).2.1 l hl).length_le
    refine ⟨l, (order_congr (contract?_name hd) hd).trans hOk, ?_⟩
    rw [List.length_cons]
    omega
  induction hPath with
  | single hExtends => exact hStep hSelf h hExtends
  | @tail middle last hPath hExtends ih =>
      obtain ⟨other, hOther, hLess⟩ := ih
      obtain ⟨_, _, _, _, hMiddle⟩ := Relation.TransGen.tail'_iff.mp hPath
      obtain ⟨shortest, hShortest, hLess'⟩ := hStep (contract?_name hMiddle) hOther hExtends
      exact ⟨shortest, hShortest, by omega⟩

/-- A contract with an order does not extend itself. -/
theorem not_transGen_self {i : Index} {c : Contract} {own : List String}
    (hSelf : i.contract? c.name = some c) (h : i.order c.name = .ok own) :
    ¬ Relation.TransGen i.Extends c c := by
  intro hCycle
  obtain ⟨other, hOther, hLess⟩ := exists_shorter_of_transGen hCycle hSelf h
  obtain rfl : own = other := Except.ok.inj (h.symm.trans hOther)
  omega

/-- What stands before a contract in its order is what it inherits. -/
theorem mem_bases_iff {i : Index} {c d : Contract} {bases : List Contract}
    (h : i.linearize c.name = .ok (bases ++ [c])) :
    d ∈ bases ↔ Relation.TransGen i.Extends c d := by
  have hSelf := contract?_of_linearize h
  have hNew : c ∉ bases := by
    have hNodup := (nodup_of_linearize h).of_map
    rw [List.nodup_append] at hNodup
    exact fun hMem => hNodup.2.2 c hMem c (List.mem_singleton_self c) rfl
  obtain ⟨own, hOwn, _⟩ := linearize_eq_ok_iff.mp h
  have hAll := mem_linearize_iff (d := d) h hSelf
  rw [List.mem_append, List.mem_singleton, Relation.reflTransGen_iff_eq_or_transGen] at hAll
  constructor
  · intro hd
    exact (hAll.mp (.inl hd)).resolve_left fun hSame => hNew (hSame ▸ hd)
  · intro hPath
    refine (hAll.mpr (.inr hPath)).resolve_right fun hSame => ?_
    exact not_transGen_self hSelf hOwn (hSame ▸ hPath)

/-- What an order of a contract's ancestors has to be. -/
structure IsLinearization (i : Index) (c : Contract) (chain : List Contract) : Prop where
  /-- No contract comes twice, not even two of one name. -/
  nodup : (chain.map Contract.name).Nodup
  /-- The contract and all that it inherits are there, and nothing else. -/
  complete : ∀ d, d ∈ chain ↔ Relation.ReflTransGen i.Extends c d
  /-- The contract comes last. -/
  last : chain.getLast? = some c
  /-- The bases of every contract stand before it, in the order in which it names them. -/
  precedence : ∀ x ∈ chain, ∃ bases : List Contract,
    x.bases.map (fun b => i.contract? b.name) = bases.map some ∧ (bases ++ [x]).Sublist chain
  /-- Every base of a contract has an order, which is kept. -/
  monotone : ∀ x ∈ chain, ∀ b ∈ x.bases,
    ∃ own, i.linearize b.name = .ok own ∧ own.Sublist chain

/-- Whenever the ancestors of a contract are put into an order, it is one that they have to be in. This
holds however names are dotted, and also when several contracts have one name. -/
theorem isLinearization_of_linearize {i : Index} {name : String} {chain : List Contract}
    (h : i.linearize name = .ok chain) :
    ∃ c, i.contract? name = some c ∧ i.IsLinearization c chain := by
  obtain ⟨c, bases, hFound, rfl⟩ := linearize_eq_append h
  refine ⟨c, hFound, ?_⟩
  constructor
  · exact nodup_of_linearize h
  · exact fun d => mem_linearize_iff h hFound
  · exact List.getLast?_concat
  · exact fun x hx => bases_sublist_of_mem h hx
  · exact fun x hx b hb => linearize_base_of_mem h hx hb

/-- Two contracts share a base, which is named with and without dots, and a name is used twice. -/
def doubled : Index :=
  let contract (name : String) (bases : List String) : Item :=
    .contract { (default : Contract) with
      name, bases := bases.map fun base => { (default : Invocation) with name := base } }
  { unit := ⟨[contract "D" ["B", "Lib.C"], contract "A" [], contract "C" ["A"],
      contract "B" ["Lib.A"], contract "A" ["D"]], ⟨0, 0⟩⟩
    text := ""
    version := 0 }

/-- The shared base comes once and first, and the second contract of its name is left out. -/
theorem doubled_isLinearization :
    ∃ chain c, doubled.linearize "Main.D" = .ok chain ∧
      chain.map Contract.name = ["A", "B", "C", "D"] ∧
      doubled.contract? "Main.D" = some c ∧ doubled.IsLinearization c chain := by
  have hChain : ∃ chain, doubled.linearize "Main.D" = .ok chain ∧
      chain.map Contract.name = ["A", "B", "C", "D"] := by
    refine ⟨["A", "B", "C", "D"].filterMap doubled.contract?, by cbv, by cbv⟩
  obtain ⟨chain, hOk, hNames⟩ := hChain
  obtain ⟨c, hFound, hLinear⟩ := isLinearization_of_linearize hOk
  exact ⟨chain, c, hOk, hNames, hFound, hLinear⟩

end SolNorm.Index
