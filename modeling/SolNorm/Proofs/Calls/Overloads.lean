import SolNorm.Proofs.Calls.Binding

/-!
Which function a call means. The receiver tells along which contracts the call looks for functions; of
each list of parameter types the most derived function counts. A call with positional arguments means
the function that its arguments fit best. If there are several such functions, the call is reported
with all of them, and if its arguments fit none, it fails.
-/

namespace SolNorm

open Outline

namespace Fit

/-- The worst of some fits. Where there is nothing to fit, the fit is exact. -/
structure IsWorst (fits : List Fit) (fit : Fit) : Prop where
  le : ∀ other ∈ fits, fit.rank ≤ other.rank
  attained : fit ∈ fits ∨ fits = [] ∧ fit = .exact

/-- The smaller of two fits is no better than either. -/
theorem rank_min_le (a b : Fit) : (a.min b).rank ≤ a.rank ∧ (a.min b).rank ≤ b.rank := by
  cases a <;> cases b <;> decide

theorem min_eq_or (a b : Fit) : a.min b = a ∨ a.min b = b := by
  unfold min
  split <;> simp

theorem eq_of_rank_eq {a b : Fit} (h : a.rank = b.rank) : a = b := by
  cases a <;> cases b <;> first | rfl | cases h

/-- There is only one worst fit. -/
theorem IsWorst.unique {fits : List Fit} {a b : Fit} (ha : IsWorst fits a) (hb : IsWorst fits b) :
    a = b := by
  rcases ha.attained with hMem | ⟨rfl, rfl⟩
  · rcases hb.attained with hMem' | ⟨rfl, rfl⟩
    · exact eq_of_rank_eq (Nat.le_antisymm (ha.le b hMem') (hb.le a hMem))
    · cases hMem
  · rcases hb.attained with hMem' | ⟨-, rfl⟩
    · cases hMem'
    · rfl

/-- Going through the fits, the worse of two is kept. -/
theorem foldl_min_le (fits : List Fit) (start : Fit) :
    (fits.foldl min start).rank ≤ start.rank ∧
      (∀ other ∈ fits, (fits.foldl min start).rank ≤ other.rank) ∧
      (fits.foldl min start = start ∨ fits.foldl min start ∈ fits) := by
  induction fits generalizing start with
  | nil => exact ⟨Nat.le_refl _, by simp, .inl rfl⟩
  | cons fit rest ih =>
      obtain ⟨hStart, hRest, hOne⟩ := ih (start.min fit)
      obtain ⟨hLeft, hRight⟩ := rank_min_le start fit
      rw [List.foldl_cons]
      refine ⟨hStart.trans hLeft, List.forall_mem_cons.mpr ⟨hStart.trans hRight, hRest⟩, ?_⟩
      rcases hOne with hSame | hMem
      · rw [hSame]
        rcases min_eq_or start fit with hMin | hMin
        · exact .inl hMin
        · exact .inr (by rw [hMin]; exact List.mem_cons_self)
      · exact .inr (List.mem_cons_of_mem _ hMem)

/-- Going through a list of fits leaves the worst one. -/
theorem isWorst_foldl_min (fits : List Fit) : IsWorst fits (fits.foldl min .exact) := by
  obtain ⟨-, hLe, hOne⟩ := foldl_min_le fits .exact
  refine ⟨hLe, ?_⟩
  rcases hOne with hExact | hMem
  · cases fits with
    | nil => exact .inr ⟨rfl, rfl⟩
    | cons fit rest =>
        -- Nothing is better than an exact fit, so the first fit is exact as well.
        have hFirst := hLe fit List.mem_cons_self
        rw [hExact] at hFirst
        have hSame : fit = .exact := eq_of_rank_eq (Nat.le_antisymm (rank_le_exact fit) hFirst)
        exact .inl (by rw [hExact, hSame]; exact List.mem_cons_self)
  · exact .inl hMem

end Fit

/-- An ordinary function has the name and the parameter types of another. -/
def Outline.Function.Matches (f g : Function) : Prop :=
  f.kind = .function ∧ f.name = g.name ∧ f.parameterTypes = g.parameterTypes

/-- An ordinary function along some contracts, which are given from the most basic to the most derived.
No function of its name and its parameter types stands in a more derived contract, or before it in its
own. -/
structure MostDerived (chain : List Contract) (t : FunctionRef) : Prop where
  ordinary : t.function.kind = .function
  place : ∃ basic derived earlier later, chain = basic ++ t.contract :: derived ∧
    t.contract.functions = earlier ++ t.function :: later ∧
    (∀ d ∈ derived, ∀ f ∈ d.functions, ¬ f.Matches t.function) ∧
    ∀ f ∈ earlier, ¬ f.Matches t.function

/-- The first ordinary function of a contract that passes a test. -/
theorem find?_ordinaryFunctions_singleton {c : Contract} {p : FunctionRef → Bool} {t : FunctionRef} :
    (ordinaryFunctions [c]).find? p = some t ↔
      t.contract = c ∧ t.function.kind = .function ∧ p t = true ∧
        ∃ earlier later, c.functions = earlier ++ t.function :: later ∧
          ∀ f ∈ earlier, f.kind = .function → p ⟨c, f⟩ = false := by
  obtain ⟨owner, g⟩ := t
  simp only [ordinaryFunctions, List.flatMap_cons, List.flatMap_nil, List.append_nil, List.find?_map,
    List.find?_filter, Option.map_eq_some_iff, List.find?_eq_some_iff_append, FunctionRef.mk.injEq]
  constructor
  · rintro ⟨f, ⟨hTest, earlier, later, hSplit, hEarlier⟩, rfl, rfl⟩
    simp only [beq_iff_eq, Function.comp_apply, Bool.decide_and, Bool.decide_eq_true,
      Bool.and_eq_true, decide_eq_true_eq] at hTest
    refine ⟨rfl, hTest.1, hTest.2, earlier, later, hSplit, fun d hd hKind => ?_⟩
    simpa [hKind] using hEarlier d hd
  · rintro ⟨rfl, hKind, hTest, earlier, later, hSplit, hEarlier⟩
    refine ⟨g, ⟨by simp [hKind, hTest], earlier, later, hSplit, fun d hd => ?_⟩, rfl, rfl⟩
    simpa [← imp_iff_not_or] using hEarlier d hd

/-- The first function that passes a test is in the first contract with one that does. -/
theorem find?_ordinaryFunctions_iff {l : List Contract} {p : FunctionRef → Bool} {t : FunctionRef} :
    (ordinaryFunctions l).find? p = some t ↔
      t.function.kind = .function ∧ p t = true ∧
        ∃ before after earlier later, l = before ++ t.contract :: after ∧
          t.contract.functions = earlier ++ t.function :: later ∧
          (∀ d ∈ before, ∀ f ∈ d.functions, f.kind = .function → p ⟨d, f⟩ = false) ∧
          ∀ f ∈ earlier, f.kind = .function → p ⟨t.contract, f⟩ = false := by
  have hEach : (ordinaryFunctions l).find? p =
      l.findSome? fun c => (ordinaryFunctions [c]).find? p := by
    simp only [ordinaryFunctions, List.flatMap_cons, List.flatMap_nil, List.append_nil,
      List.find?_flatMap]
  have hNone (c : Contract) : (ordinaryFunctions [c]).find? p = none ↔
      ∀ f ∈ c.functions, f.kind = .function → p ⟨c, f⟩ = false := by
    simp [ordinaryFunctions]
  rw [hEach, List.findSome?_eq_some_iff]
  simp only [find?_ordinaryFunctions_singleton, hNone]
  constructor
  · rintro ⟨before, c, after, hSplit, ⟨rfl, hKind, hTest, earlier, later, hOwn, hEarlier⟩, hBefore⟩
    exact ⟨hKind, hTest, before, after, earlier, later, hSplit, hOwn, hBefore, hEarlier⟩
  · rintro ⟨hKind, hTest, before, after, earlier, later, hSplit, hOwn, hBefore, hEarlier⟩
    exact ⟨before, t.contract, after, hSplit, ⟨rfl, hKind, hTest, earlier, later, hOwn, hEarlier⟩,
      hBefore⟩

/-- The functions that can be seen are the most derived ones of the name. -/
theorem mem_visibleOverloads_iff_mostDerived {chain : List Contract} {name : String}
    {t : FunctionRef} :
    t ∈ visibleOverloads chain name ↔ t.function.name = name ∧ MostDerived chain t := by
  rw [mem_visibleOverloads_iff, find?_ordinaryFunctions_iff]
  simp only [Bool.and_eq_true, Bool.and_eq_false_iff, beq_iff_eq, beq_eq_false_iff_ne]
  constructor
  · rintro ⟨hKind, ⟨rfl, -⟩, before, after, earlier, later, hSplit, hOwn, hBefore, hEarlier⟩
    refine ⟨rfl, hKind, after.reverse, before.reverse, earlier, later, ?_, hOwn, ?_, ?_⟩
    · rw [← List.reverse_inj, hSplit]
      simp
    · rintro d hd f hf ⟨hOrdinary, hName, hTypes⟩
      exact (hBefore d (List.mem_reverse.mp hd) f hf hOrdinary).elim (· hName) (· hTypes)
    · rintro f hf ⟨hOrdinary, hName, hTypes⟩
      exact (hEarlier f hf hOrdinary).elim (· hName) (· hTypes)
  · rintro ⟨rfl, hKind, basic, derived, earlier, later, rfl, hOwn, hDerived, hEarlier⟩
    refine ⟨hKind, ⟨rfl, trivial⟩, derived.reverse, basic.reverse, earlier, later, by simp, hOwn,
      ?_, ?_⟩
    · intro d hd f hf hOrdinary
      exact not_and_or.mp fun hBoth => hDerived d (List.mem_reverse.mp hd) f hf ⟨hOrdinary, hBoth⟩
    · intro f hf hOrdinary
      exact not_and_or.mp fun hBoth => hEarlier f hf ⟨hOrdinary, hBoth⟩

namespace Index

/-- The contracts along which a call looks for its function, from the most basic to the most derived. -/
inductive LooksIn (i : Index) (c : Contract) (call : Call) : List Contract → Prop where
  /-- A name that stands alone and means nothing else is looked for along the contract of the call. -/
  | alone {chain : List Contract} (receiver : call.receiver = .none)
      (free : i.hides c (i.enclosing? call) call.callee = false)
      (order : i.linearize c.name = .ok chain) : LooksIn i c call chain
  | this {chain : List Contract} (receiver : call.receiver = .this)
      (order : i.linearize c.name = .ok chain) : LooksIn i c call chain
  /-- The contract itself is left out. -/
  | super {chain : List Contract} {own : Contract} (receiver : call.receiver = .super)
      (order : i.linearize c.name = .ok (chain ++ [own])) : LooksIn i c call chain
  | contract {chain : List Contract} {target : String} (receiver : call.receiver = .named target)
      (known : (i.contract? target).isSome = true) (order : i.linearize target = .ok chain) :
      LooksIn i c call chain
  /-- A variable stands for the contract that is its type. -/
  | value {chain : List Contract} {target : String} {type : TypeRef}
      (receiver : call.receiver = .named target) (unknown : i.contract? target = none)
      (typed : i.variableType? c (i.enclosing? call) target = some type)
      (known : (i.contract? type.text).isSome = true) (order : i.linearize type.text = .ok chain) :
      LooksIn i c call chain
  | cast {chain : List Contract} {target : String} (receiver : call.receiver = .cast target)
      (known : (i.contract? target).isSome = true) (order : i.linearize target = .ok chain) :
      LooksIn i c call chain

section

variable {i : Index} {c : Contract} {call : Call} {chain : List Contract} {t : FunctionRef}

/-- A contract is searched along the order of its ancestors. -/
theorem searchFrom_eq_some_iff {name : String} :
    i.searchFrom name = .ok (some chain) ↔ i.linearize name = .ok chain := by
  unfold searchFrom
  cases i.linearize name <;> simp

/-- A call that looks along a chain is searched along it. -/
theorem scopeOf_of_looksIn (h : i.LooksIn c call chain) :
    i.scopeOf c (i.enclosing? call) call = .ok (some chain) := by
  unfold scopeOf
  cases h with
  | alone receiver free order => simp [receiver, free, searchFrom_eq_some_iff, order]
  | this receiver order => simp [receiver, searchFrom_eq_some_iff, order]
  | super receiver order =>
      simp only [receiver, searchFrom_eq_some_iff.mpr order]
      simp [Except.map]
  | contract receiver known order => simp [receiver, known, searchFrom_eq_some_iff, order]
  | value receiver unknown typed known order =>
      simp [receiver, unknown, typed, known, searchFrom_eq_some_iff, order]
  | cast receiver known order => simp [receiver, known, searchFrom_eq_some_iff, order]

/-- A call is searched only along a chain along which it looks. -/
theorem looksIn_of_scopeOf (h : i.scopeOf c (i.enclosing? call) call = .ok (some chain)) :
    i.LooksIn c call chain := by
  unfold scopeOf at h
  cases hReceiver : call.receiver with
  | none =>
      simp only [hReceiver] at h
      split at h
      · cases h
      · rename_i hFree
        exact .alone hReceiver (by simpa using hFree) (searchFrom_eq_some_iff.mp h)
  | this =>
      simp only [hReceiver] at h
      exact .this hReceiver (searchFrom_eq_some_iff.mp h)
  | super =>
      simp only [hReceiver, Outcome.map_eq_ok_iff] at h
      obtain ⟨found, hFound, hChain⟩ := h
      obtain ⟨whole, rfl, rfl⟩ := Option.map_eq_some_iff.mp hChain
      have hOrder := searchFrom_eq_some_iff.mp hFound
      obtain ⟨own, bases, -, rfl⟩ := linearize_eq_append hOrder
      exact .super hReceiver (by simpa using hOrder)
  | named target =>
      simp only [hReceiver] at h
      split at h
      · rename_i hKnown
        exact .contract hReceiver hKnown (searchFrom_eq_some_iff.mp h)
      · rename_i hUnknown
        split at h
        · rename_i type hTyped
          split at h
          · rename_i hKnown
            exact .value hReceiver (by simpa using hUnknown) hTyped hKnown
              (searchFrom_eq_some_iff.mp h)
          · cases h
        · cases h
  | cast target =>
      simp only [hReceiver] at h
      split at h
      · rename_i hKnown
        exact .cast hReceiver hKnown (searchFrom_eq_some_iff.mp h)
      · cases h
  | other =>
      simp only [hReceiver] at h
      cases h

/-- How well each argument of a call fits its parameter. -/
def conversions (i : Index) (c : Contract) (call : Call) (t : FunctionRef) : List Fit :=
  List.zipWith (fun parameter argument =>
    i.conversion (i.argumentType c (i.enclosing? call) argument) parameter.type.text)
    t.function.parameters call.arguments

/-- A function that a call can mean along some contracts. -/
structure IsCandidate (chain : List Contract) (call : Call) (t : FunctionRef) : Prop where
  name : t.function.name = call.callee
  arity : t.function.parameters.length = call.arguments.length
  mostDerived : MostDerived chain t

/-- A candidate that the arguments fit, and that they fit no worse than any other. -/
structure IsBest (i : Index) (c : Contract) (call : Call) (chain : List Contract) (t : FunctionRef) :
    Prop where
  candidate : IsCandidate chain call t
  fits : ¬ Fit.IsWorst (i.conversions c call t) .none
  best : ∀ d, IsCandidate chain call d → ∀ own other, Fit.IsWorst (i.conversions c call t) own →
    Fit.IsWorst (i.conversions c call d) other → other.rank ≤ own.rank

/-- The quality of a function is the worst fit among its arguments. -/
theorem isWorst_quality (i : Index) (c : Contract) (call : Call) (t : FunctionRef) :
    Fit.IsWorst (i.conversions c call t) (i.quality c (i.enclosing? call) call.arguments t) := by
  have hFold : i.quality c (i.enclosing? call) call.arguments t =
      (i.conversions c call t).foldl Fit.min .exact := by
    rw [quality, conversions, ← List.map_uncurry_zip_eq_zipWith, List.foldl_map]
    rfl
  rw [hFold]
  exact Fit.isWorst_foldl_min _

theorem isWorst_conversions_iff {fit : Fit} :
    Fit.IsWorst (i.conversions c call t) fit ↔
      i.quality c (i.enclosing? call) call.arguments t = fit :=
  ⟨(isWorst_quality i c call t).unique, fun h => h ▸ isWorst_quality i c call t⟩

/-- The best of some candidates are those that fit and that no other fits better. -/
theorem mem_bestCandidates_iff {f : Option Function} {candidates : List FunctionRef} :
    t ∈ i.bestCandidates c f call candidates ↔
      t ∈ candidates ∧ i.fitOf c f call t ≠ .none ∧
        ∀ d ∈ candidates, (i.fitOf c f call d).rank ≤ (i.fitOf c f call t).rank := by
  rw [bestCandidates_eq]
  split
  · rename_i hEmpty
    rw [List.isEmpty_iff, List.filter_eq_nil_iff] at hEmpty
    simp only [beq_iff_eq] at hEmpty
    rw [List.mem_filter, beq_iff_eq]
    refine and_congr_right fun hMem => ⟨fun hFit => ⟨by simp [hFit], fun d hd => ?_⟩, fun hFits => ?_⟩
    · rw [hFit]
      exact Nat.le_of_lt_succ (Fit.rank_lt_exact_iff.mpr (hEmpty d hd))
    · exact not_not.mp fun hNot => hFits.1 (Fit.eq_none_of_ne (hEmpty t hMem) hNot)
  · rename_i hSome
    rw [List.isEmpty_iff, List.filter_eq_nil_iff] at hSome
    simp only [beq_iff_eq, not_forall, not_not] at hSome
    obtain ⟨e, he, hExact⟩ := hSome
    rw [List.mem_filter, beq_iff_eq]
    refine and_congr_right fun hMem => ⟨fun hFit => ⟨by simp [hFit], fun d hd => ?_⟩, fun hFits => ?_⟩
    · rw [hFit]
      exact Fit.rank_le_exact _
    · -- Another candidate fits exactly, so this one does.
      have hLe := hFits.2 e he
      rw [hExact] at hLe
      exact Fit.eq_of_rank_eq (Nat.le_antisymm (Fit.rank_le_exact _) hLe)

/-- Without names, a call fits only functions with as many parameters as it has arguments. -/
theorem fitOf_eq (hPositional : i.hasNamedArguments call = false) :
    i.fitOf c (i.enclosing? call) call t =
      if t.function.parameters.length = call.arguments.length then
        i.quality c (i.enclosing? call) call.arguments t
      else .none := by
  simp [fitOf, hPositional]

/-- The best candidates of a call with positional arguments. -/
theorem mem_bestCandidates_iff_isBest (hPositional : i.hasNamedArguments call = false) :
    t ∈ i.bestCandidates c (i.enclosing? call) call (visibleOverloads chain call.callee) ↔
      i.IsBest c call chain t := by
  rw [mem_bestCandidates_iff]
  simp only [mem_visibleOverloads_iff_mostDerived, fitOf_eq hPositional]
  constructor
  · rintro ⟨⟨hName, hDerived⟩, hFits, hBest⟩
    have hArity : t.function.parameters.length = call.arguments.length := by
      by_contra hOther
      exact hFits (if_neg hOther)
    rw [if_pos hArity] at hFits hBest
    refine ⟨⟨hName, hArity, hDerived⟩, fun hNone => hFits (isWorst_conversions_iff.mp hNone), ?_⟩
    intro d hd own other hOwn hOther
    have hLe := hBest d ⟨hd.name, hd.mostDerived⟩
    rwa [if_pos hd.arity, isWorst_conversions_iff.mp hOther, isWorst_conversions_iff.mp hOwn] at hLe
  · rintro ⟨⟨hName, hArity, hDerived⟩, hFits, hBest⟩
    rw [if_pos hArity]
    refine ⟨⟨hName, hDerived⟩, fun hNone => hFits (isWorst_conversions_iff.mpr hNone), ?_⟩
    rintro d ⟨hName', hDerived'⟩
    split
    · rename_i hArity'
      exact hBest d ⟨hName', hArity', hDerived'⟩ _ _ (isWorst_quality i c call t)
        (isWorst_quality i c call d)
    · exact Nat.zero_le _

/-- The receiver of a call determines the contracts that are searched. -/
theorem looksIn_iff :
    i.LooksIn c call chain ↔ i.scopeOf c (i.enclosing? call) call = .ok (some chain) :=
  ⟨scopeOf_of_looksIn, looksIn_of_scopeOf⟩

/-- What a call means depends on how many best candidates there are. -/
theorem resolve_of_looksIn (h : i.LooksIn c call chain) :
    i.resolve c call =
      match i.bestCandidates c (i.enclosing? call) call (visibleOverloads chain call.callee) with
      | [] => .error .unresolved
      | [target] => .ok (some target)
      | many => .error (.ambiguous (many.map fun r => r.key.render)) := by
  unfold resolve
  dsimp only
  rw [looksIn_iff.mp h]
  rfl

/-- There is no best function if and only if none fits at all. -/
theorem bestCandidates_eq_nil_iff {f : Option Function} {candidates : List FunctionRef} :
    i.bestCandidates c f call candidates = [] ↔ ∀ d ∈ candidates, i.fitOf c f call d = .none := by
  rw [bestCandidates_eq]
  split
  · rename_i hEmpty
    rw [List.isEmpty_iff, List.filter_eq_nil_iff] at hEmpty
    rw [List.filter_eq_nil_iff]
    simp only [beq_iff_eq] at hEmpty ⊢
    refine forall₂_congr fun d hd => ⟨Fit.eq_none_of_ne (hEmpty d hd), ?_⟩
    rintro hNone hImplicit
    cases hNone.symm.trans hImplicit
  · rename_i hSome
    rw [List.isEmpty_iff] at hSome
    refine ⟨fun hNil => absurd hNil hSome, fun hNone => absurd ?_ hSome⟩
    rw [List.filter_eq_nil_iff]
    intro d hd
    simp [hNone d hd]

/-- A call fails if every function that it could mean has an argument which does not fit. -/
theorem bestCandidates_eq_nil_iff_isCandidate (hPositional : i.hasNamedArguments call = false) :
    i.bestCandidates c (i.enclosing? call) call (visibleOverloads chain call.callee) = [] ↔
      ∀ t, IsCandidate chain call t → Fit.IsWorst (i.conversions c call t) .none := by
  rw [bestCandidates_eq_nil_iff]
  simp only [mem_visibleOverloads_iff_mostDerived, isWorst_conversions_iff, fitOf_eq hPositional,
    ite_eq_right_iff]
  exact forall_congr' fun t => ⟨fun h ht => h ⟨ht.name, ht.mostDerived⟩ ht.arity,
    fun h hName hArity => h ⟨hName.1, hArity, hName.2⟩⟩

theorem nodup_bestCandidates :
    (i.bestCandidates c (i.enclosing? call) call (visibleOverloads chain call.callee)).Nodup := by
  rw [bestCandidates_eq]
  split <;> exact (nodup_visibleOverloads chain call.callee).filter _

/-- A call with positional arguments, which looks for its function along some contracts, means the
only candidate that its arguments fit best. It is ambiguous exactly when there are several of those,
and then all of them are reported. It means nothing exactly when its arguments fit no candidate. -/
theorem resolve_overloads (hScope : i.LooksIn c call chain)
    (hPositional : i.hasNamedArguments call = false) :
    (∀ t, i.resolve c call = .ok (some t) ↔
        i.IsBest c call chain t ∧ ∀ d, i.IsBest c call chain d → d = t) ∧
      ((∃ names, i.resolve c call = .error (.ambiguous names)) ↔
        ∃ t d, t ≠ d ∧ i.IsBest c call chain t ∧ i.IsBest c call chain d) ∧
      (∀ names, i.resolve c call = .error (.ambiguous names) →
        ∃ best : List FunctionRef, best.Nodup ∧ (∀ t, t ∈ best ↔ i.IsBest c call chain t) ∧
          names = best.map fun t => t.key.render) ∧
      (i.resolve c call = .error .unresolved ↔
        ∀ t, IsCandidate chain call t → Fit.IsWorst (i.conversions c call t) .none) := by
  rw [resolve_of_looksIn hScope, ← bestCandidates_eq_nil_iff_isCandidate hPositional]
  simp only [← mem_bestCandidates_iff_isBest hPositional]
  have hNodup : (i.bestCandidates c (i.enclosing? call) call
      (visibleOverloads chain call.callee)).Nodup := nodup_bestCandidates
  generalize i.bestCandidates c (i.enclosing? call) call (visibleOverloads chain call.callee) = best
    at hNodup
  match best, hNodup with
  | [], _ => simp
  | [target], _ => simp [eq_comm]
  | first :: second :: rest, hNodup =>
      have hNe : first ≠ second := fun hSame => (List.nodup_cons.mp hNodup).1 (by simp [hSame])
      refine ⟨fun t => ⟨nofun, ?_⟩,
        ⟨fun _ => ⟨first, second, hNe, by simp, by simp⟩, fun _ => ⟨_, rfl⟩⟩, ?_, by simp⟩
      · rintro ⟨-, hOnly⟩
        exact absurd ((hOnly first (by simp)).trans (hOnly second (by simp)).symm) hNe
      · intro names hNames
        cases hNames
        exact ⟨_, hNodup, fun _ => Iff.rfl, rfl⟩

end

/-- A contract with three functions `f`. -/
def several : Contract :=
  { (default : Contract) with
    name := "A"
    functions := [Collision.overload "f" "uint8" 10, Collision.overload "f" "uint256" 20,
      Collision.overload "f" "bool" 30] }

/-- A contract that inherits the three and has one of them anew. -/
def renewing : Contract :=
  let argument : Variable := { (default : Variable) with name := some "v", type := ⟨"uint8", default⟩ }
  let caller : Function :=
    { (default : Function) with
      kind := .function, name := "g", parameters := [argument], span := ⟨70, 90⟩ }
  { (default : Contract) with
    name := "B", bases := [{ (default : Invocation) with name := "A" }]
    functions := [Collision.overload "f" "uint256" 60, caller], span := ⟨50, 99⟩ }

def overloaded : Index :=
  { (default : Index) with unit := ⟨[.contract several, .contract renewing], default⟩ }

/-- A call of `f` in the function `g`. -/
def callOfF (argument : ExprKind) : Call :=
  { callee := "f", calleeSpan := ⟨75, 76⟩, receiver := .none
    arguments := [⟨argument, ⟨77, 78⟩, []⟩], span := ⟨75, 79⟩ }

/-- A variable of eight bits fits one function exactly, and a number fits two functions equally well,
of which one is hidden in the base. -/
theorem overloaded_resolved :
    overloaded.LooksIn renewing (callOfF (.name "v")) [several, renewing] ∧
      overloaded.hasNamedArguments (callOfF (.name "v")) = false ∧
      (∃ t, t.key = ⟨"A", "f", ["uint8"]⟩ ∧
        overloaded.resolve renewing (callOfF (.name "v")) = .ok (some t) ∧
        overloaded.IsBest renewing (callOfF (.name "v")) [several, renewing] t) ∧
      overloaded.LooksIn renewing (callOfF .number) [several, renewing] ∧
      overloaded.hasNamedArguments (callOfF .number) = false ∧
      overloaded.resolve renewing (callOfF .number) =
        .error (.ambiguous ["B.f(uint256)", "A.f(uint8)"]) ∧
      ∃ t d, t ≠ d ∧ overloaded.IsBest renewing (callOfF .number) [several, renewing] t ∧
        overloaded.IsBest renewing (callOfF .number) [several, renewing] d := by
  have hOrder : overloaded.linearize "B" = .ok [several, renewing] := by rfl
  have hTyped : overloaded.LooksIn renewing (callOfF (.name "v")) [several, renewing] :=
    .alone rfl (by decide +kernel) hOrder
  have hNumber : overloaded.LooksIn renewing (callOfF .number) [several, renewing] :=
    .alone rfl (by decide +kernel) hOrder
  have hFound : overloaded.resolve renewing (callOfF (.name "v")) =
      .ok (some ⟨several, Collision.overload "f" "uint8" 10⟩) := by
    decide +kernel
  have hBoth : overloaded.resolve renewing (callOfF .number) =
      .error (.ambiguous ["B.f(uint256)", "A.f(uint8)"]) := by
    decide +kernel
  refine ⟨hTyped, rfl, ⟨_, rfl, hFound, ?_⟩, hNumber, rfl, hBoth, ?_⟩
  · exact (((resolve_overloads hTyped rfl).1 _).mp hFound).1
  · exact (resolve_overloads hNumber rfl).2.1.mp ⟨_, hBoth⟩

end Index

end SolNorm
