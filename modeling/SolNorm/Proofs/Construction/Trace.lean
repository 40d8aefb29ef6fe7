import SolNorm.Proofs.Construction.Rewrites

/-!
What runs when a contract is deployed. Before constructors are merged, the constructors along its
chain run one after the other. Afterwards a contract of the chain first runs the functions that its
constructor calls, and then its own body, if it still has a constructor. A constructor can be called
for by two contracts of a chain, and then it runs twice.
-/

namespace SolNorm.Construction

open Outline Relation

/-- The bodies that calls run, when functions of some names have them. -/
def bodiesRun (definitions : List (String × Contract × Function)) (calls : List String) :
    List (Contract × Function) :=
  calls.filterMap fun name => definitions.lookup name

/-- Calls run the constructors under whose names they find them. -/
theorem bodiesRun_of_lookup {definitions : List (String × Contract × Function)}
    {calls : List Initialization}
    (h : ∀ x ∈ calls, definitions.lookup x.name = some x.source) :
    bodiesRun definitions (calls.map Initialization.name) = calls.map Initialization.source := by
  rw [bodiesRun, List.filterMap_map]
  calc
    _ = calls.filterMap (some ∘ Initialization.source) := List.filterMap_congr h
    _ = _ := congrFun List.filterMap_eq_map calls

/-- The bodies that run for one contract of a chain after a merge. -/
def bodiesAt (converted : List (Contract × Function)) (rewrites : List Rewrite) (c : Contract) :
    List (Contract × Function) :=
  bodiesRun (converted.map fun x => (initializerName x.1.name, x))
    ((callsIn rewrites c).map Initialization.name) ++
      (constructorsOf [c]).filter fun x => !converted.contains x

/-- The bodies that run when the last contract of a chain is deployed after a merge. -/
def traceAfter (converted : List (Contract × Function)) (rewrites : List Rewrite)
    (chain : List Contract) : List (Contract × Function) :=
  chain.flatMap (bodiesAt converted rewrites)

/-- The body of a constructor runs when it is the turn of some contract. -/
def RunsAt (i : Index) (main turn c : Contract) : Prop :=
  Initializes i main turn c ∨ turn = c ∧ ¬ IsConverted i main c

/-- Every converted constructor of a chain is called for by one contract of the chain. -/
def CalledOnce (i : Index) (main : Contract) (chain : List Contract) : Prop :=
  ∀ b ∈ chain, IsConverted i main b → ∃! c, c ∈ chain ∧ Initializes i main c b

/-- Constructors of a chain run at the turns of contracts that are in the same order. -/
def CalledInOrder (i : Index) (main : Contract) (chain : List Contract) : Prop :=
  ∀ x ∈ chain, ∀ y ∈ chain, x.constructor?.isSome = true → y.constructor?.isSome = true →
    chain.idxOf x < chain.idxOf y → ∀ c ∈ chain, ∀ d ∈ chain, RunsAt i main c x →
      RunsAt i main d y → chain.idxOf c ≤ chain.idxOf d

section

variable {α β : Type}

/-- A part of a list that keeps its order is what a test leaves of it. -/
theorem eq_filter_of_sublist {part whole : List α} {p : α → Bool} (hSub : part.Sublist whole)
    (hNodup : whole.Nodup) (h : ∀ x ∈ whole, p x = true ↔ x ∈ part) : part = whole.filter p := by
  induction hSub with
  | slnil => rfl
  | @cons part whole a hSub ih =>
      obtain ⟨hNew, hNodup⟩ := List.nodup_cons.mp hNodup
      obtain ⟨hHead, hRest⟩ := List.forall_mem_cons.mp h
      have hNot : ¬ p a = true := fun hp => hNew (hSub.subset (hHead.mp hp))
      rw [List.filter_cons_of_neg hNot]
      exact ih hNodup hRest
  | @cons_cons part whole a hSub ih =>
      obtain ⟨hNew, hNodup⟩ := List.nodup_cons.mp hNodup
      obtain ⟨hHead, hRest⟩ := List.forall_mem_cons.mp h
      rw [List.filter_cons_of_pos (hHead.mpr List.mem_cons_self)]
      refine congrArg (a :: ·) (ih hNodup fun x hx => ?_)
      have hOther : x ≠ a := fun hSame => hNew (hSame ▸ hx)
      rw [hRest x hx, List.mem_cons, or_iff_right hOther]

theorem rel_or_eq_or_rel {R : α → α → Prop} {l : List α} (h : l.Pairwise R) {a b : α} (ha : a ∈ l)
    (hb : b ∈ l) : R a b ∨ a = b ∨ R b a := by
  obtain ⟨i, hi, rfl⟩ := List.mem_iff_getElem.mp ha
  obtain ⟨j, hj, rfl⟩ := List.mem_iff_getElem.mp hb
  rcases Nat.lt_trichotomy i j with hij | rfl | hij
  · exact .inl (List.pairwise_iff_getElem.mp h i j hi hj hij)
  · exact .inr (.inl rfl)
  · exact .inr (.inr (List.pairwise_iff_getElem.mp h j i hj hi hij))

theorem nodup_of_rising {place : α → Nat} {l : List α}
    (h : l.Pairwise fun a b => place a < place b) : l.Nodup :=
  h.imp fun hLess hSame => by simp [hSame] at hLess

theorem rising_idxOf [DecidableEq α] {l : List α} (h : l.Nodup) :
    l.Pairwise fun a b => l.idxOf a < l.idxOf b := by
  rw [List.pairwise_iff_getElem]
  intro i j hi hj hij
  rwa [h.idxOf_getElem i hi, h.idxOf_getElem j hj]

/-- The entries of a list are handed out along another list. They come out as they were exactly when
each of them is handed out once, and those that come later are not handed out earlier. -/
theorem flatMap_filter_eq_iff {l : List α} {b : List β} {place : α → Nat} {pos : β → Nat}
    {R : α → β → Bool} (hl : l.Pairwise fun a c => place a < place c)
    (hb : b.Pairwise fun x y => pos x < pos y) :
    (l.flatMap fun a => b.filter (R a)) = b ↔
      (∀ x ∈ b, ∃! a, a ∈ l ∧ R a x = true) ∧
      ∀ x ∈ b, ∀ y ∈ b, pos x < pos y → ∀ a ∈ l, ∀ c ∈ l, R a x = true → R c y = true →
        place a ≤ place c := by
  have hRising : (l.flatMap fun a => b.filter (R a)).Pairwise (fun x y => pos x < pos y) ↔
      l.Pairwise fun a c => ∀ x ∈ b.filter (R a), ∀ y ∈ b.filter (R c), pos x < pos y := by
    rw [List.pairwise_flatMap]
    exact and_iff_right fun a _ => hb.filter _
  constructor
  · intro h
    have hBetween := hl.and (hRising.mp (h.symm ▸ hb))
    -- What is handed out earlier stands earlier.
    have hBefore {x y : β} (hx : x ∈ b) (hy : y ∈ b) {a c : α} (ha : a ∈ l) (hc : c ∈ l)
        (hax : R a x = true) (hcy : R c y = true) (hLess : place a < place c) : pos x < pos y := by
      rcases rel_or_eq_or_rel hBetween ha hc with hRel | rfl | hRel
      · exact hRel.2 x (List.mem_filter.mpr ⟨hx, hax⟩) y (List.mem_filter.mpr ⟨hy, hcy⟩)
      · omega
      · omega
    refine ⟨fun x hx => ?_, fun x hx y hy hLess a ha c hc hax hcy => ?_⟩
    · obtain ⟨a, ha, hIn⟩ := List.mem_flatMap.mp (h.symm ▸ hx)
      have hax := (List.mem_filter.mp hIn).2
      refine ⟨a, ⟨ha, hax⟩, fun c ⟨hc, hcx⟩ => ?_⟩
      rcases rel_or_eq_or_rel hl hc ha with hLess | hSame | hLess
      · exact absurd (hBefore hx hx hc ha hcx hax hLess) (Nat.lt_irrefl _)
      · exact hSame
      · exact absurd (hBefore hx hx ha hc hax hcx hLess) (Nat.lt_irrefl _)
    · by_contra hNot
      have hBack := hBefore hy hx hc ha hcy hax (by omega)
      omega
  · rintro ⟨hOnce, hOrder⟩
    have hPairwise := hRising.mpr (hl.imp_of_mem fun {a c} ha hc hLess x hx y hy => by
      obtain ⟨hx, hax⟩ := List.mem_filter.mp hx
      obtain ⟨hy, hcy⟩ := List.mem_filter.mp hy
      rcases rel_or_eq_or_rel hb hx hy with hBefore | rfl | hAfter
      · exact hBefore
      · rw [(hOnce x hx).unique ⟨ha, hax⟩ ⟨hc, hcy⟩] at hLess
        omega
      · have hBack := hOrder y hy x hx hAfter c hc a ha hcy hax
        omega)
    refine List.Perm.eq_of_pairwise (fun _ _ _ _ _ _ => by omega) hPairwise hb
      ((List.perm_ext_iff_of_nodup (nodup_of_rising hPairwise) (nodup_of_rising hb)).mpr fun x => ?_)
    simp only [List.mem_flatMap, List.mem_filter]
    constructor
    · rintro ⟨_, _, hx, _⟩
      exact hx
    · intro hx
      obtain ⟨a, ⟨ha, hax⟩, _⟩ := hOnce x hx
      exact ⟨a, ha, hx, hax⟩

end

/-- Constructors of a chain are in the order of their contracts. -/
theorem rising_constructorsOf {chain : List Contract} (h : chain.Nodup) :
    (constructorsOf chain).Pairwise fun x y => chain.idxOf x.1 < chain.idxOf y.1 := by
  rw [constructorsOf, List.pairwise_filterMap]
  refine (rising_idxOf h).imp fun {a b} hLess x hx y hy => ?_
  obtain ⟨f, _, rfl⟩ := Option.map_eq_some_iff.mp hx
  obtain ⟨g, _, rfl⟩ := Option.map_eq_some_iff.mp hy
  exact hLess

section

variable {i : Index} {main : Contract} {bases : List Contract}

/-- The constructors of the bases are the converted ones. -/
theorem mem_converted_iff (hMain : i.linearize main.name = .ok (bases ++ [main]))
    {x : Contract × Function} (hCtor : x.1.constructor? = some x.2) :
    x ∈ constructorsOf bases ↔ IsConverted i main x.1 := by
  rw [mem_constructorsOf_iff, Index.mem_bases_iff hMain, IsConverted]
  simp [hCtor]

/-- Calls of converted constructors run the bodies of these constructors. -/
theorem bodiesRun_converted (hMain : i.linearize main.name = .ok (bases ++ [main]))
    {calls : List Initialization} (hCalls : ∀ x ∈ calls, x.source ∈ constructorsOf bases) :
    bodiesRun ((constructorsOf bases).map fun x => (initializerName x.1.name, x))
      (calls.map Initialization.name) = calls.map Initialization.source := by
  have hUnique (name : String) (x y : Contract × Function)
      (hx : (name, x) ∈ (constructorsOf bases).map fun x => (initializerName x.1.name, x))
      (hy : (name, y) ∈ (constructorsOf bases).map fun x => (initializerName x.1.name, x)) :
      x = y := by
    simp only [List.mem_map, Prod.mk.injEq, exists_eq_right_right] at hx hy
    obtain ⟨hxBase, hxCtor⟩ := mem_constructorsOf_iff.mp hx.1
    obtain ⟨hyBase, hyCtor⟩ := mem_constructorsOf_iff.mp hy.1
    have hSame : x.1 = y.1 := List.inj_on_of_nodup_map (Index.nodup_of_linearize hMain)
      (List.mem_append_left _ hxBase) (List.mem_append_left _ hyBase)
      (initializerName_injective (hx.2.trans hy.2.symm))
    rw [hSame, hyCtor, Option.some.injEq] at hxCtor
    exact Prod.ext hSame hxCtor.symm
  refine bodiesRun_of_lookup fun x hx => ?_
  rw [lookup_eq_some_iff_mem hUnique]
  exact List.mem_map.mpr ⟨x.source, hCalls x hx, rfl⟩

/-- If constructors have to be merged, some constructor is converted. -/
theorem exists_converted_of_isNeeded {isInitialized : Contract → Bool} {p : Plan}
    (hSelf : i.contract? main.name = some main) (hPlan : plan i main isInitialized = .ok p)
    (hNeeded : p.report.isNeeded = true) : ∃ b, IsConverted i main b := by
  obtain ⟨chain, hChain, hPlan⟩ := Outcome.bind_eq_ok_iff.mp hPlan
  obtain ⟨_, _, rfl⟩ := Outcome.bind_pure_eq_ok_iff.mp hPlan
  obtain ⟨main', bases, hFound, rfl⟩ := Index.linearize_eq_append hChain
  obtain rfl : main = main' := Option.some.inj (hSelf.symm.trans hFound)
  obtain ⟨b, hb, hParameters⟩ := List.any_eq_true.mp hNeeded
  rw [List.dropLast_concat] at hb
  refine ⟨b, (Index.mem_bases_iff hChain).mp hb, ?_⟩
  by_contra hNone
  simp [parametersOf, Option.not_isSome_iff_eq_none.mp hNone] at hParameters

/-- A contract calls only for bases of its own. -/
theorem transGen_of_initializes {c b : Contract} (h : Initializes i main c b) :
    TransGen i.Extends c b := by
  obtain ⟨hConverted, rfl | ⟨_, _, hPath, _⟩⟩ := h
  · exact hConverted.1
  · exact hPath

open scoped Classical in
/-- At the turn of a contract those constructors of a chain run that it initializes, and its own if it
still has one. -/
theorem bodiesAt_eq (hMain : i.linearize main.name = .ok (bases ++ [main])) {name : String}
    {chain : List Contract} {c : Contract} {rewrites : List Rewrite}
    (hChain : i.linearize name = .ok chain) (hc : c ∈ chain)
    (hCalls : AreCallsOf i main c (callsIn rewrites c)) :
    bodiesAt (constructorsOf bases) rewrites c =
      (constructorsOf chain).filter fun x => RunsAt i main c x.1 := by
  obtain ⟨own, hOwn, hSub⟩ := Index.linearize_of_mem hChain hc
  obtain ⟨hCallsSub, hCallsMem⟩ := hCalls own hOwn
  have hSources : ∀ x ∈ callsIn rewrites c, x.source ∈ constructorsOf bases := by
    intro x hx
    have hSource := List.mem_map_of_mem (f := Initialization.source) hx
    have hIn := hCallsSub.subset hSource
    rw [mem_converted_iff hMain (mem_constructorsOf_iff.mp hIn).2]
    exact ((hCallsMem _ hIn).mp hSource).1
  unfold bodiesAt
  rw [bodiesRun_converted hMain hSources]
  refine eq_filter_of_sublist ?_ (nodup_of_rising (rising_constructorsOf
    (Index.nodup_of_linearize hChain).of_map)) fun x hx => ?_
  · -- The calls are for bases, which come before the contract itself.
    have hAll := hCallsSub.append (List.filter_sublist (p := fun x =>
      !(constructorsOf bases).contains x) (l := constructorsOf [c]))
    rw [← constructorsOf_append] at hAll
    exact hAll.trans (hSub.filterMap _)
  · obtain ⟨_, hCtor⟩ := mem_constructorsOf_iff.mp hx
    rw [decide_eq_true_iff, RunsAt, List.mem_append]
    refine or_congr ⟨fun hInit => ?_, fun hIn => ?_⟩ ?_
    · have hBase := (Index.mem_bases_iff hOwn).mpr (transGen_of_initializes hInit)
      exact (hCallsMem x (mem_constructorsOf_iff.mpr ⟨hBase, hCtor⟩)).mpr hInit
    · exact (hCallsMem x (hCallsSub.subset hIn)).mp hIn
    · rw [List.mem_filter, mem_constructorsOf_iff, List.mem_singleton, and_iff_left hCtor,
        Bool.not_eq_true', Bool.eq_false_iff, ne_eq, List.contains_iff_mem,
        mem_converted_iff hMain hCtor, eq_comm]

/-- A converted constructor runs when it is called for. -/
theorem runsAt_of_converted {turn c : Contract} (h : IsConverted i main c) :
    RunsAt i main turn c ↔ Initializes i main turn c := by
  simp [RunsAt, h]

/-- A constructor that is not converted runs in the turn of its contract. -/
theorem runsAt_of_not_converted {turn c : Contract} (h : ¬ IsConverted i main c) :
    RunsAt i main turn c ↔ turn = c := by
  simp [RunsAt, Initializes, h]

/-- The constructors that are not converted run at the turn of their own contract. -/
theorem calledOnce_iff {chain : List Contract} :
    CalledOnce i main chain ↔
      ∀ x ∈ constructorsOf chain, ∃! c, c ∈ chain ∧ RunsAt i main c x.1 := by
  constructor
  · intro h x hx
    have hMem := (mem_constructorsOf_iff.mp hx).1
    by_cases hConverted : IsConverted i main x.1
    · simp only [runsAt_of_converted hConverted]
      exact h x.1 hMem hConverted
    · simp only [runsAt_of_not_converted hConverted]
      exact ⟨x.1, ⟨hMem, rfl⟩, fun c hc => hc.2⟩
  · intro h b hb hConverted
    obtain ⟨f, hf⟩ := Option.isSome_iff_exists.mp hConverted.2
    have hOnce := h (b, f) (mem_constructorsOf_iff.mpr ⟨hb, hf⟩)
    simpa only [runsAt_of_converted hConverted] using hOnce

open scoped Classical in
/-- What runs after a merge is what ran before exactly when every converted constructor is called for
once and the turns are in order. -/
theorem traceAfter_eq_iff (hMain : i.linearize main.name = .ok (bases ++ [main])) {name : String}
    {chain : List Contract} {rewrites : List Rewrite} (hChain : i.linearize name = .ok chain)
    (hCalls : ∀ c, AreCallsOf i main c (callsIn rewrites c)) :
    traceAfter (constructorsOf bases) rewrites chain = constructorsOf chain ↔
      CalledOnce i main chain ∧ CalledInOrder i main chain := by
  have hNodup : chain.Nodup := (Index.nodup_of_linearize hChain).of_map
  have hTrace : traceAfter (constructorsOf bases) rewrites chain =
      chain.flatMap fun c => (constructorsOf chain).filter fun x => RunsAt i main c x.1 :=
    List.flatMap_congr fun c hc => bodiesAt_eq hMain hChain hc (hCalls c)
  rw [hTrace, flatMap_filter_eq_iff (rising_idxOf hNodup) (rising_constructorsOf hNodup),
    calledOnce_iff]
  simp only [decide_eq_true_iff]
  refine and_congr_right fun _ => ?_
  constructor
  · intro h x hx y hy hxCtor hyCtor
    obtain ⟨f, hf⟩ := Option.isSome_iff_exists.mp hxCtor
    obtain ⟨g, hg⟩ := Option.isSome_iff_exists.mp hyCtor
    exact h (x, f) (mem_constructorsOf_iff.mpr ⟨hx, hf⟩) (y, g)
      (mem_constructorsOf_iff.mpr ⟨hy, hg⟩)
  · intro h x hx y hy
    obtain ⟨hxMem, hxCtor⟩ := mem_constructorsOf_iff.mp hx
    obtain ⟨hyMem, hyCtor⟩ := mem_constructorsOf_iff.mp hy
    exact h x.1 hxMem y.1 hyMem (by simp [hxCtor]) (by simp [hyCtor])

/-- No converted constructor is forgotten: a contract that can be deployed calls for it, or inherits
one that does and that is not the main contract. -/
theorem exists_initializes (hNames : (i.contracts.map Contract.name).Nodup) {c b : Contract}
    {found : List String} (hOrder : i.order c.name = .ok found)
    (hSelf : i.contract? c.name = some c) (hConcrete : c.isConcrete = true)
    (hOutside : ¬ ReflTransGen i.Extends main c) (hConverted : IsConverted i main b)
    (hPath : TransGen i.Extends c b) :
    ∃ d, ReflTransGen i.Extends c d ∧ d ≠ main ∧ Initializes i main d b := by
  -- The search goes from a contract to one that it inherits, whose order is shorter.
  induction hLength : found.length using Nat.strong_induction_on generalizing c found with
  | _ n ih =>
      by_cases hNone : ∀ d, TransGen i.Extends c d → IsOther i main d → ¬ TransGen i.Extends d b
      · refine ⟨c, .refl, ?_, hConverted, .inr ⟨hConcrete, hOutside, hPath, hNone⟩⟩
        rintro rfl
        exact hOutside .refl
      · push Not at hNone
        obtain ⟨d, hToD, ⟨hOut, e, he, hName, hDeployed⟩, hFromD⟩ := hNone
        obtain ⟨other, hOther, hLess⟩ := Index.exists_shorter_of_transGen hToD hSelf hOrder
        have hd : i.contract? d.name = some d := by
          obtain ⟨_, _, ⟨_, _, hFound⟩⟩ := TransGen.tail'_iff.mp hToD
          exact Index.contract?_name hFound
        obtain rfl : e = d := List.inj_on_of_nodup_map hNames he
          (Index.mem_contracts_of_contract? hd) hName
        obtain ⟨k, hToK, hk⟩ := ih other.length (by omega) hOther hd hDeployed hOut hFromD rfl
        exact ⟨k, hToD.to_reflTransGen.trans hToK, hk⟩

theorem exists_mem_initializes (hNames : (i.contracts.map Contract.name).Nodup) {c b : Contract}
    {chain : List Contract} (hChain : i.linearize c.name = .ok chain)
    (hSelf : i.contract? c.name = some c) (hConcrete : c.isConcrete = true)
    (hOutside : ¬ ReflTransGen i.Extends main c) (hb : b ∈ chain)
    (hConverted : IsConverted i main b) : ∃ d ∈ chain, d ≠ main ∧ Initializes i main d b := by
  obtain ⟨found, hOrder, _⟩ := Index.linearize_eq_ok_iff.mp hChain
  have hPath : TransGen i.Extends c b := by
    refine (reflTransGen_iff_eq_or_transGen.mp
      ((Index.mem_linearize_iff hChain hSelf).mp hb)).resolve_left ?_
    rintro rfl
    exact hOutside hConverted.1.to_reflTransGen
  obtain ⟨d, hToD, hd⟩ :=
    exists_initializes hNames hOrder hSelf hConcrete hOutside hConverted hPath
  exact ⟨d, (Index.mem_linearize_iff hChain hSelf).mpr hToD, hd⟩

/-- A contract that can be deployed and inherits the main one runs the converted constructors twice:
the main contract calls for them, and so does another contract of the chain. -/
theorem not_calledOnce_of_mem (hNames : (i.contracts.map Contract.name).Nodup) {c b : Contract}
    {chain : List Contract} (hChain : i.linearize c.name = .ok chain)
    (hSelf : i.contract? c.name = some c) (hConcrete : c.isConcrete = true)
    (hOutside : ¬ ReflTransGen i.Extends main c) (hMain : main ∈ chain)
    (hConverted : IsConverted i main b) : ¬ CalledOnce i main chain := by
  intro hOnce
  have hb : b ∈ chain := by
    rw [Index.mem_linearize_iff hChain hSelf] at hMain ⊢
    exact hMain.trans hConverted.1.to_reflTransGen
  obtain ⟨d, hd, hOther, hInit⟩ :=
    exists_mem_initializes hNames hChain hSelf hConcrete hOutside hb hConverted
  exact hOther ((hOnce b hb hConverted).unique ⟨hd, hInit⟩ ⟨hMain, hConverted, .inl rfl⟩)

/-- If a contract stands alone, it calls for everything that it inherits: no other contract of its
chain can be deployed, unless it is a base of the main one, and none keeps its constructor. -/
theorem called_of_alone {c : Contract} {own : List Contract}
    (hChain : i.linearize c.name = .ok (own ++ [c])) (hConcrete : c.isConcrete = true)
    (hOutside : ¬ ReflTransGen i.Extends main c) (hMain : main ∉ own)
    (hAlone : ∀ d ∈ own, ¬ IsOther i main d)
    (hNoneKept : ∀ d ∈ own, d.constructor?.isSome = true → IsConverted i main d) :
    CalledOnce i main (own ++ [c]) ∧ CalledInOrder i main (own ++ [c]) := by
  have hOwnTurn {d b : Contract} (hd : d ∈ own ++ [c]) (h : Initializes i main d b) : d = c := by
    rcases List.mem_append.mp hd with hd' | hd'
    · obtain ⟨_, rfl | ⟨hDeployed, hOut, _⟩⟩ := h
      · exact absurd hd' hMain
      · have hMember := Index.mem_contracts_of_contract? (Index.contract?_of_mem_linearize hChain hd)
        exact absurd ⟨hOut, d, hMember, rfl, hDeployed⟩ (hAlone d hd')
    · exact List.mem_singleton.mp hd'
  have hNot : ¬ IsConverted i main c := fun h => hOutside h.1.to_reflTransGen
  have hTurn {d x : Contract} (hd : d ∈ own ++ [c]) (hx : x ∈ own ++ [c])
      (hCtor : x.constructor?.isSome = true) (h : RunsAt i main d x) : d = c := by
    rcases List.mem_append.mp hx with hx | hx
    · exact hOwnTurn hd ((runsAt_of_converted (hNoneKept x hx hCtor)).mp h)
    · rw [List.mem_singleton.mp hx, runsAt_of_not_converted hNot] at h
      exact h
  refine ⟨fun b hb hConverted => ⟨c, ⟨?_, ?_⟩, fun d hd => hOwnTurn hd.1 hd.2⟩, ?_⟩
  · exact List.mem_append_right _ (List.mem_singleton_self c)
  · rcases List.mem_append.mp hb with hb | hb
    · refine ⟨hConverted, .inr ⟨hConcrete, hOutside, (Index.mem_bases_iff hChain).mp hb, ?_⟩⟩
      exact fun d hd hOther => absurd hOther (hAlone d ((Index.mem_bases_iff hChain).mpr hd))
    · exact absurd (List.mem_singleton.mp hb ▸ hConverted) hNot
  · intro x hx y hy hxCtor hyCtor _ d hd e he hdx hey
    rw [hTurn hd hx hxCtor hdx, hTurn he hy hyCtor hey]

end

/-- The outline of the text that it holds, in which one contract inherits a contract `B` that calls
for the constructor of its base, and another inherits that base on its own. -/
def rederived : Index :=
  let ctor (parameters : List Variable) (modifiers : List Invocation) (start body : Nat)
      (paramsSpan : Span) : Function :=
    { (default : Function) with
      kind := .constructor, name := "constructor", parameters, paramsSpan, modifiers
      body := some ⟨⟨body, body + 2⟩, [], [], []⟩, span := ⟨start, body + 2⟩ }
  let number : Variable :=
    { (default : Variable) with
      name := some "x", type := ⟨"uint256", ⟨23, 27⟩⟩, span := ⟨23, 29⟩ }
  let base (name : String) : Invocation := { (default : Invocation) with name }
  let given (start : Nat) : Invocation :=
    { base "A" with
      arguments := some [⟨.number, ⟨start + 2, start + 3⟩, []⟩]
      argsSpan := some ⟨start + 1, start + 4⟩, span := ⟨start, start + 4⟩ }
  let contract (name : String) (bases : List Invocation) (functions : List Function)
      (bodySpan : Span) : Item :=
    .contract { (default : Contract) with name, bases, functions, bodySpan }
  { unit := ⟨[contract "A" [] [ctor [number] [] 11 30 ⟨22, 30⟩] ⟨10, 33⟩,
      contract "B" [given 47] [] ⟨51, 53⟩,
      contract "D" [base "B"] [] ⟨68, 70⟩,
      contract "E" [base "A"] [ctor [] [given 100] 86 104 ⟨97, 99⟩] ⟨85, 107⟩], ⟨0, 107⟩⟩
    text := "contract A{constructor(uint x){}}contract B is A(1){}contract D is B{}" ++
      "contract E is A{constructor() A(2){}}"
    version := 0 }

theorem merge_rederived : ∃ edits report others,
    merge rederived "B" = .ok (edits, report :: others) ∧ report.isNeeded = true :=
  ⟨[⟨⟨11, 30⟩, "function __constructor_A(uint x) internal "⟩, ⟨⟨48, 51⟩, ""⟩,
      ⟨⟨52, 52⟩, "\n    constructor() \x7b\n        __constructor_A(1);\n    \x7d\n"⟩,
      ⟨⟨69, 69⟩, "\n    constructor() \x7b\n        __constructor_A(1);\n    \x7d\n"⟩,
      ⟨⟨86, 104⟩, "constructor() "⟩, ⟨⟨105, 105⟩, "\n        __constructor_A(2);"⟩],
    ⟨"B", ["A", "B"], true, [], ["__constructor_A(1)"], true⟩,
    [⟨"A", ["A"], false, ["uint x"], [], false⟩,
      ⟨"D", ["A", "B", "D"], true, [], ["__constructor_A(1)"], true⟩,
      ⟨"E", ["A", "E"], true, [], ["__constructor_A(2)"], true⟩], by cbv, rfl⟩

end SolNorm.Construction
