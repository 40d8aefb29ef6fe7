import SolNorm.Proofs.Calls.Renamed
import SolNorm.Proofs.Selector.Separation

/-!
What a call is bound to before and after functions get their new names. A call that was bound to a
function is bound to the definition in its place, unless its new name means something else there: a
variable, a type or a built-in function hides it, or a function that had another name before fits as
well.
-/

namespace SolNorm

open Outline

/-- The functions of a name are searched for in the order in which they hide each other. -/
theorem visibleOverloads_eq (chain : List Contract) (name : String) :
    visibleOverloads chain name =
      ((ordinaryFunctions chain.reverse).filter fun d => d.function.name == name).foldl
        addUnlessHidden [] := by
  have hNamed : (chain.reverse.flatMap fun c =>
      (c.functionsNamed name).map fun f => (⟨c, f⟩ : FunctionRef)) =
        (ordinaryFunctions chain.reverse).filter fun d => d.function.name == name := by
    simp only [ordinaryFunctions, List.filter_flatMap, List.filter_map, List.filter_filter]
    congr
    funext c
    simp only [Contract.functionsNamed, Function.comp_def, Bool.and_comm]
  rw [visibleOverloads, hNamed]

/-- Of every list of types, the function that is met first is seen, and no other. -/
theorem mem_foldl_addUnlessHidden_iff {l : List FunctionRef} {d : FunctionRef} :
    d ∈ l.foldl addUnlessHidden [] ↔
      l.find? (fun s => s.function.parameterTypes == d.function.parameterTypes) = some d := by
  induction l using List.reverseRecOn generalizing d with
  | nil => simp
  | append_singleton l x ih =>
      rw [List.foldl_append, List.foldl_cons, List.foldl_nil, addUnlessHidden, List.find?_append]
      by_cases hTypes : d.function.parameterTypes = x.function.parameterTypes
      · cases hFirst : l.find? fun s => s.function.parameterTypes == d.function.parameterTypes with
        | some s =>
            have hSame : s.function.parameterTypes = d.function.parameterTypes := by
              simpa using List.find?_some hFirst
            have hSeen : s ∈ l.foldl addUnlessHidden [] := ih.mpr (by rw [hSame, hFirst])
            rw [if_pos, ih, hFirst]
            · rfl
            · rw [List.any_eq_true]
              exact ⟨s, hSeen, by simp [hSame, hTypes]⟩
        | none =>
            rw [if_neg, List.mem_append, ih, hFirst, List.mem_singleton]
            · simp [hTypes, eq_comm]
            · rw [List.any_eq_true]
              rintro ⟨s, hSeen, hSame⟩
              rw [ih, eq_of_beq hSame, ← hTypes, hFirst] at hSeen
              cases hSeen
      · have hLast : [x].find? (fun s => s.function.parameterTypes == d.function.parameterTypes) =
            none := by
          simp [Ne.symm hTypes]
        rw [hLast, Option.or_none, ← ih]
        split
        · exact Iff.rfl
        · rw [List.mem_append, List.mem_singleton]
          exact ⟨fun h => h.resolve_right fun hSame => hTypes (by rw [hSame]), .inl⟩

theorem nodup_foldl_addUnlessHidden (l : List FunctionRef) :
    (l.foldl addUnlessHidden []).Nodup := by
  induction l using List.reverseRecOn with
  | nil => exact List.nodup_nil
  | append_singleton l x ih =>
      rw [List.foldl_append, List.foldl_cons, List.foldl_nil, addUnlessHidden]
      split
      · exact ih
      · rename_i hNew
        rw [← List.concat_eq_append]
        refine ih.concat fun hSeen => hNew ?_
        exact List.any_eq_true.mpr ⟨x, hSeen, beq_self_eq_true _⟩

theorem nodup_visibleOverloads (chain : List Contract) (name : String) :
    (visibleOverloads chain name).Nodup := by
  rw [visibleOverloads_eq]
  exact nodup_foldl_addUnlessHidden _

/-- A function can be seen if it is the first of its name and types. -/
theorem mem_visibleOverloads_iff {chain : List Contract} {name : String} {d : FunctionRef} :
    d ∈ visibleOverloads chain name ↔
      (ordinaryFunctions chain.reverse).find? (fun s => s.function.name == name &&
        s.function.parameterTypes == d.function.parameterTypes) = some d := by
  rw [visibleOverloads_eq, mem_foldl_addUnlessHidden_iff, List.find?_filter]
  simp only [← Bool.and_eq_true, Bool.decide_eq_true]

namespace Fit

theorem rank_lt_exact_iff {fit : Fit} : fit.rank < exact.rank ↔ fit ≠ exact := by
  cases fit <;> decide

theorem rank_lt_implicit_iff {fit : Fit} : fit.rank < implicit.rank ↔ fit = none := by
  cases fit <;> decide

theorem rank_le_exact (fit : Fit) : fit.rank ≤ exact.rank := by
  cases fit <;> decide

theorem eq_none_of_ne {fit : Fit} (hExact : fit ≠ exact) (hImplicit : fit ≠ implicit) :
    fit = none := by
  cases fit <;> simp_all

end Fit

namespace Index

section Fit

variable {i : Index} {c : Contract} {f : Option Function} {call : Call}

/-- How well a call fits a function. Arguments that are given by name fit any function by conversion,
and others only a function with as many parameters. -/
def fitOf (i : Index) (c : Contract) (f : Option Function) (call : Call) (d : FunctionRef) : Fit :=
  if i.hasNamedArguments call then .implicit
  else if d.function.parameters.length = call.arguments.length then
    i.quality c f call.arguments d
  else .none

/-- How well a call fits depends on the types of the parameters only. -/
theorem fitOf_congr {d e : FunctionRef}
    (h : d.function.parameterTypes = e.function.parameterTypes) :
    i.fitOf c f call d = i.fitOf c f call e := by
  have hLength : d.function.parameters.length = e.function.parameters.length := by
    simpa [Function.parameterTypes] using congrArg List.length h
  have hQuality (d : FunctionRef) : i.quality c f call.arguments d =
      (d.function.parameterTypes.zip call.arguments).foldl (fun worst pair =>
        worst.min (i.conversion (i.argumentType c f pair.2) pair.1)) .exact := by
    rw [quality, Function.parameterTypes, List.zip_map_left, List.foldl_map]
    rfl
  unfold fitOf
  rw [hLength, hQuality, hQuality, h]

/-- The best candidates are those that fit exactly, or else those that fit by conversion. -/
theorem bestCandidates_eq (candidates : List FunctionRef) :
    i.bestCandidates c f call candidates =
      if (candidates.filter fun d => i.fitOf c f call d == .exact).isEmpty then
        candidates.filter fun d => i.fitOf c f call d == .implicit
      else candidates.filter fun d => i.fitOf c f call d == .exact := by
  unfold bestCandidates
  by_cases hNamed : i.hasNamedArguments call = true
  · simp [fitOf, hNamed]
  · have hFitting (fit : Fit) (hFit : fit ≠ .none) :
        (fun d : FunctionRef => d.function.parameters.length == call.arguments.length &&
          i.quality c f call.arguments d == fit) = fun d => i.fitOf c f call d == fit := by
      funext d
      by_cases hLength : d.function.parameters.length = call.arguments.length
      · simp [fitOf, hNamed, hLength]
      · have hNone : (Fit.none == fit) = false := beq_eq_false_iff_ne.mpr hFit.symm
        simp [fitOf, hNamed, hLength, hNone]
    rw [if_neg hNamed]
    simp only [hFitting .exact (by decide), hFitting .implicit (by decide)]

/-- A test leaves one entry if that is the only one to pass it. -/
theorem filter_eq_singleton_iff {α : Type} {p : α → Bool} {l : List α} {a : α} (h : l.Nodup) :
    l.filter p = [a] ↔ a ∈ l ∧ p a = true ∧ ∀ b ∈ l, p b = true → b = a := by
  rw [← List.perm_singleton, List.perm_ext_iff_of_nodup (h.filter p) (List.nodup_singleton a)]
  simp only [List.mem_filter, List.mem_singleton]
  constructor
  · intro hSame
    obtain ⟨hMem, hHolds⟩ := (hSame a).mpr rfl
    exact ⟨hMem, hHolds, fun b hb hp => (hSame b).mp ⟨hb, hp⟩⟩
  · rintro ⟨hMem, hHolds, hOnly⟩ b
    exact ⟨fun hb => hOnly b hb.1 hb.2, fun hb => hb ▸ ⟨hMem, hHolds⟩⟩

/-- A single candidate is best exactly when it fits and all others fit worse. -/
theorem bestCandidates_eq_singleton_iff {candidates : List FunctionRef} {t : FunctionRef}
    (hNodup : candidates.Nodup) :
    i.bestCandidates c f call candidates = [t] ↔
      t ∈ candidates ∧ i.fitOf c f call t ≠ .none ∧
        ∀ d ∈ candidates, d ≠ t → (i.fitOf c f call d).rank < (i.fitOf c f call t).rank := by
  rw [bestCandidates_eq]
  split
  · rename_i hEmpty
    rw [List.isEmpty_iff, List.filter_eq_nil_iff] at hEmpty
    rw [filter_eq_singleton_iff hNodup]
    refine and_congr_right fun hMem => ?_
    simp only [beq_iff_eq] at hEmpty ⊢
    constructor
    · rintro ⟨hFit, hOnly⟩
      refine ⟨by simp [hFit], fun d hd hNe => ?_⟩
      rw [hFit, Fit.rank_lt_implicit_iff]
      exact Fit.eq_none_of_ne (hEmpty d hd) fun hImplicit => hNe (hOnly d hd hImplicit)
    · rintro ⟨hFits, hBest⟩
      have hFit : i.fitOf c f call t = .implicit :=
        Classical.not_not.mp fun hNot => hFits (Fit.eq_none_of_ne (hEmpty t hMem) hNot)
      refine ⟨hFit, fun d hd hImplicit => ?_⟩
      by_contra hNe
      have hLess := hBest d hd hNe
      rw [hFit, hImplicit] at hLess
      exact absurd hLess (Nat.lt_irrefl _)
  · rename_i hSome
    rw [List.isEmpty_iff, List.filter_eq_nil_iff] at hSome
    simp only [beq_iff_eq, not_forall, Classical.not_not] at hSome
    obtain ⟨e, he, hExact⟩ := hSome
    rw [filter_eq_singleton_iff hNodup]
    refine and_congr_right fun hMem => ?_
    simp only [beq_iff_eq]
    constructor
    · rintro ⟨hFit, hOnly⟩
      refine ⟨by simp [hFit], fun d hd hNe => ?_⟩
      rw [hFit, Fit.rank_lt_exact_iff]
      exact fun hAgain => hNe (hOnly d hd hAgain)
    · rintro ⟨_, hBest⟩
      -- Nothing fits better than exactly, so a candidate that fits exactly is the best one.
      have hOnly : ∀ d ∈ candidates, i.fitOf c f call d = .exact → d = t := by
        intro d hd hFit
        by_contra hNe
        have hLess := hBest d hd hNe
        rw [hFit] at hLess
        exact absurd hLess (Nat.not_lt.mpr (Fit.rank_le_exact _))
      exact ⟨hOnly e he hExact ▸ hExact, hOnly⟩

/-- What it means for a call to be bound to a function along some contracts: the function can be seen
there, and it fits better than all others that can. -/
structure BoundTo (i : Index) (c : Contract) (f : Option Function) (call : Call)
    (chain : List Contract) (t : FunctionRef) : Prop where
  visible : t ∈ visibleOverloads chain call.callee
  fits : i.fitOf c f call t ≠ .none
  best : ∀ d ∈ visibleOverloads chain call.callee, d ≠ t →
    (i.fitOf c f call d).rank < (i.fitOf c f call t).rank

/-- A call refers to a function exactly when it is bound to it along the contracts in which it looks
for one. -/
theorem resolve_eq_some_iff {t : FunctionRef} :
    i.resolve c call = .ok (some t) ↔
      ∃ chain, i.scopeOf c (i.enclosing? call) call = .ok (some chain) ∧
        i.BoundTo c (i.enclosing? call) call chain t := by
  have hBound (f : Option Function) (chain : List Contract) :
      i.bestCandidates c f call (visibleOverloads chain call.callee) = [t] ↔
        i.BoundTo c f call chain t := by
    rw [bestCandidates_eq_singleton_iff (nodup_visibleOverloads chain call.callee)]
    exact ⟨fun h => ⟨h.1, h.2.1, h.2.2⟩, fun h => ⟨h.visible, h.fits, h.best⟩⟩
  simp only [← hBound]
  unfold resolve
  rw [Outcome.bind_eq_ok_iff]
  constructor
  · rintro ⟨scope, hScope, hFound⟩
    cases scope with
    | none => cases hFound
    | some chain =>
        refine ⟨chain, hScope, ?_⟩
        dsimp only at hFound
        split at hFound
        · cases hFound
        · rename_i hBest
          rw [Outcome.pure_eq_ok_iff, Option.some.injEq] at hFound
          rw [hBest, hFound]
        · cases hFound
  · rintro ⟨chain, hScope, hBest⟩
    refine ⟨some chain, hScope, ?_⟩
    dsimp only
    rw [hBest]
    rfl

end Fit

/-- A function that a call is bound to has the name that is called. -/
theorem BoundTo.name {i : Index} {c : Contract} {f : Option Function} {call : Call}
    {chain : List Contract} {t : FunctionRef} (h : i.BoundTo c f call chain t) :
    t.function.name = call.callee := by
  have hFirst := List.find?_some (mem_visibleOverloads_iff.mp h.visible)
  simp only [Bool.and_eq_true, beq_iff_eq] at hFirst
  exact hFirst.1

section Renamed

variable {i : Index} {r : Renames} {c : Contract} {call call' : Call}
  {place : Option (Contract × Function)} {chain : List Contract}

/-- New names do not change how well the arguments of a call fit. -/
theorem fitOf_renamed (hArguments : call'.arguments = call.arguments) (d : FunctionRef) :
    (i.renamed r).fitOf (i.renamedContract r c) (place.map fun p => i.renamedFunction r p.1 p.2)
      call' (i.renamedRef r d) = i.fitOf c (place.map Prod.snd) call d := by
  have hNamed : (i.renamed r).hasNamedArguments call' = i.hasNamedArguments call := by
    unfold hasNamedArguments
    rw [hArguments]
    rfl
  unfold fitOf
  rw [hNamed, hArguments, quality_renamed]
  rfl

/-- New names do not change which functions there are along a chain. -/
theorem ordinaryFunctions_renamed :
    ordinaryFunctions (chain.map (i.renamedContract r)) =
      (ordinaryFunctions chain).map (i.renamedRef r) := by
  simp only [ordinaryFunctions, List.flatMap_map, List.map_flatMap, renamedContract,
    List.filter_map, List.map_map]
  rfl

theorem name_renamedRef {d : FunctionRef} (h : d.function.kind = .function) :
    (i.renamedRef r d).function.name = r.nameOf d := by
  simp only [renamedRef, renamedFunction, h, if_true]

/-- Contracts keep their names, so they are searched along the same chains. -/
theorem searchFrom_renamed (name : String) :
    (i.renamed r).searchFrom name =
      (i.searchFrom name).map (Option.map (List.map (i.renamedContract r))) := by
  unfold searchFrom
  rw [linearize_renamed]
  cases i.linearize name <;> rfl

/-- What hides a function is never a function of a contract, so it keeps its name. -/
theorem hides_renamed (name : String) :
    (i.renamed r).hides (i.renamedContract r c) (place.map fun p => i.renamedFunction r p.1 p.2)
      name = i.hides c (place.map Prod.snd) name := by
  unfold hides
  rw [isOtherName_renamed, variableType?_renamed]

/-- A call of a member looks for its function in the same contracts, whatever its name is. -/
theorem scopeOf_renamed_of_ne (hReceiver : call'.receiver = call.receiver)
    (hMember : call.receiver ≠ .none) :
    (i.renamed r).scopeOf (i.renamedContract r c) (place.map fun p => i.renamedFunction r p.1 p.2)
        call' =
      (i.scopeOf c (place.map Prod.snd) call).map
        (Option.map (List.map (i.renamedContract r))) := by
  unfold scopeOf
  rw [hReceiver]
  simp only [searchFrom_renamed, contract?_renamed, variableType?_renamed, Option.isSome_map,
    name_renamedContract]
  cases hKind : call.receiver with
  | none => exact absurd hKind hMember
  | this => rfl
  | super =>
      cases i.searchFrom c.name with
      | error e => rfl
      | ok found => cases found <;> simp [Except.map, List.map_dropLast]
  | named target =>
      dsimp only
      split
      · rfl
      · cases i.variableType? c (place.map Prod.snd) target with
        | none => rfl
        | some type =>
            dsimp only
            split <;> rfl
  | cast target =>
      dsimp only
      split <;> rfl
  | other => rfl

/-- A call looks for its function in the same contracts, unless its name stands alone and is
hidden. -/
theorem scopeOf_renamed (hReceiver : call'.receiver = call.receiver)
    (hScope : i.scopeOf c (place.map Prod.snd) call = .ok (some chain)) :
    (i.renamed r).scopeOf (i.renamedContract r c) (place.map fun p => i.renamedFunction r p.1 p.2)
        call' =
      if call.receiver = .none ∧ i.hides c (place.map Prod.snd) call'.callee = true then .ok none
      else .ok (some (chain.map (i.renamedContract r))) := by
  by_cases hAlone : call.receiver = .none
  · have hFrom : i.searchFrom c.name = .ok (some chain) := by
      unfold scopeOf at hScope
      simp only [hAlone] at hScope
      split at hScope
      · cases hScope
      · exact hScope
    unfold scopeOf
    simp only [hReceiver, hAlone, true_and, hides_renamed, searchFrom_renamed,
      name_renamedContract, hFrom]
    rfl
  · rw [scopeOf_renamed_of_ne hReceiver hAlone, hScope, if_neg fun h => hAlone h.1]
    rfl

/-- The functions that can be seen under a name are those that stand in the place of the first of
their types that has the name in the end. -/
theorem mem_visibleOverloads_renamed_iff {name : String} {e : FunctionRef} :
    e ∈ visibleOverloads (chain.map (i.renamedContract r)) name ↔
      ∃ d, (ordinaryFunctions chain.reverse).find? (fun s =>
        (i.renamedRef r s).function.name == name &&
          s.function.parameterTypes == e.function.parameterTypes) = some d ∧
        i.renamedRef r d = e := by
  rw [mem_visibleOverloads_iff, ← List.map_reverse, ordinaryFunctions_renamed, List.find?_map,
    Option.map_eq_some_iff]
  rfl

end Renamed

end Index

/-- The first entry of one kind and the first of another are the same if each is of both kinds. -/
theorem eq_of_find?_of_find? {α : Type} {p q : α → Bool} {l : List α} {a b : α}
    (ha : l.find? p = some a) (hb : l.find? q = some b) (hpb : p b = true) (hqa : q a = true) :
    a = b := by
  induction l with
  | nil => cases ha
  | cons x rest ih =>
      rw [List.find?_cons] at ha hb
      cases hp : p x with
      | true =>
          cases hq : q x with
          | true =>
              rw [hp] at ha
              rw [hq] at hb
              exact Option.some.inj (ha.symm.trans hb)
          | false =>
              rw [hp] at ha
              cases ha
              exact absurd hqa (by simp [hq])
      | false =>
          cases hq : q x with
          | true =>
              rw [hq] at hb
              cases hb
              exact absurd hpb (by simp [hp])
          | false =>
              rw [hp] at ha
              rw [hq] at hb
              exact ih ha hb

namespace CallSite

variable {i : Index} {r : Renames} {c : Contract} {call : Call}

theorem follow_span : (follow i r c call).span = call.span := by
  unfold follow
  split <;> rfl

theorem follow_receiver : (follow i r c call).receiver = call.receiver := by
  unfold follow
  split <;> rfl

theorem follow_arguments : (follow i r c call).arguments = call.arguments := by
  unfold follow
  split <;> rfl

/-- A call that refers to a function calls it by the name that it has in the end. -/
theorem follow_callee {t : FunctionRef} (h : i.resolve c call = .ok (some t)) :
    (follow i r c call).callee = r.nameOf t := by
  obtain ⟨chain, _, hBound⟩ := Index.resolve_eq_some_iff.mp h
  unfold follow edit? Renames.nameOf
  rw [h]
  dsimp only
  cases r.find? t.key with
  | none => exact hBound.name.symm
  | some name => rfl

/-- The new name of a function is captured where it is called. Either the name stands alone there and
means something else, or it is that of a function that had another name before; then this one can be
seen and fits at least as well. -/
inductive Captured (i : Index) (r : Renames) (c : Contract) (call : Call) (t : FunctionRef) :
    Prop where
  | hidden (hAlone : call.receiver = .none)
      (hHides : i.hides c (i.enclosing? call) (r.nameOf t) = true)
  | overloaded {chain : List Contract} {d : FunctionRef}
      (hScope : i.scopeOf c (i.enclosing? call) call = .ok (some chain))
      (hSearched : d ∈ ordinaryFunctions chain.reverse)
      (hCaptures : r.Captures d t ∨ r.Captures t d)
      (hOther : i.renamedRef r d ≠ i.renamedRef r t)
      (hVisible : i.renamedRef r d ∈
        visibleOverloads (chain.map (i.renamedContract r)) (r.nameOf t))
      (hFits : (i.fitOf c (i.enclosing? call) call t).rank ≤
        (i.fitOf c (i.enclosing? call) call d).rank)

section Binding

variable {t : FunctionRef} {chain : List Contract}

/-- A function that is searched has the name which the table gives it. -/
theorem name_of_searched {d : FunctionRef} (hd : d ∈ ordinaryFunctions chain.reverse) :
    (i.renamedRef r d).function.name = r.nameOf d :=
  Index.name_renamedRef (mem_ordinaryFunctions_iff.mp hd).2.2

/-- A function that had another name before has the same name in the end only by capture. -/
theorem captures_of_name {d : FunctionRef} (hSound : Collision.Sound i r)
    (hd : d ∈ ordinaryFunctions chain.reverse) (hName : d.function.name ≠ t.function.name)
    (hSame : (i.renamedRef r d).function.name = r.nameOf t) :
    r.Captures d t ∨ r.Captures t d := by
  rw [name_of_searched hd] at hSame
  exact (hSound.nameOf_eq_iff (fun hBoth => hName hBoth.1) fun h => absurd h hName).mp hSame

/-- The definition in the place of the function that a call is bound to can be seen under its name
unless the name is captured. -/
theorem visible_of_not_captured (hSound : Collision.Sound i r)
    (hScope : i.scopeOf c (i.enclosing? call) call = .ok (some chain))
    (hBound : i.BoundTo c (i.enclosing? call) call chain t) (hFree : ¬ Captured i r c call t) :
    i.renamedRef r t ∈ visibleOverloads (chain.map (i.renamedContract r)) (r.nameOf t) := by
  have hFirst := mem_visibleOverloads_iff.mp hBound.visible
  have ht := List.mem_of_find?_eq_some hFirst
  have hHas : ((i.renamedRef r t).function.name == r.nameOf t &&
      t.function.parameterTypes == t.function.parameterTypes) = true := by
    simp [name_of_searched ht]
  -- What is seen is the first function of these types that has the name in the end.
  obtain ⟨d, hd⟩ := Option.isSome_iff_exists.mp
    (List.find?_isSome (p := fun s => (i.renamedRef r s).function.name == r.nameOf t &&
      s.function.parameterTypes == t.function.parameterTypes) |>.mpr ⟨t, ht, hHas⟩)
  have hSearched := List.mem_of_find?_eq_some hd
  have hProps := List.find?_some hd
  simp only [Bool.and_eq_true, beq_iff_eq] at hProps
  obtain ⟨hSame, hTypes⟩ := hProps
  have hVisible : i.renamedRef r d ∈
      visibleOverloads (chain.map (i.renamedContract r)) (r.nameOf t) := by
    refine Index.mem_visibleOverloads_renamed_iff.mpr ⟨d, ?_, rfl⟩
    rw [← hd, show (i.renamedRef r d).function.parameterTypes = t.function.parameterTypes from
      hTypes]
  by_cases hName : d.function.name = t.function.name
  · have hEq : t = d := eq_of_find?_of_find? hFirst hd
      (by simp [hName, hTypes, hBound.name]) hHas
    exact hEq ▸ hVisible
  · by_cases hPlace : i.renamedRef r d = i.renamedRef r t
    · exact hPlace ▸ hVisible
    · refine absurd (Captured.overloaded hScope hSearched
        (captures_of_name hSound hSearched hName hSame) hPlace hVisible ?_) hFree
      rw [Index.fitOf_congr hTypes]

/-- Whatever else can be seen under the name fits worse unless the name is captured. -/
theorem rank_lt_of_not_captured (hSound : Collision.Sound i r)
    (hScope : i.scopeOf c (i.enclosing? call) call = .ok (some chain))
    (hBound : i.BoundTo c (i.enclosing? call) call chain t) (hFree : ¬ Captured i r c call t)
    {d : FunctionRef} (hd : (ordinaryFunctions chain.reverse).find? (fun s =>
      (i.renamedRef r s).function.name == r.nameOf t &&
        s.function.parameterTypes == d.function.parameterTypes) = some d)
    (hOther : i.renamedRef r d ≠ i.renamedRef r t) :
    (i.fitOf c (i.enclosing? call) call d).rank < (i.fitOf c (i.enclosing? call) call t).rank := by
  have hFirst := mem_visibleOverloads_iff.mp hBound.visible
  have hSearched := List.mem_of_find?_eq_some hd
  have hProps := List.find?_some hd
  simp only [beq_self_eq_true, Bool.and_true, beq_iff_eq] at hProps
  by_cases hName : d.function.name = t.function.name
  · have hTypes : d.function.parameterTypes ≠ t.function.parameterTypes := by
      intro hTypes
      have hEq : t = d := eq_of_find?_of_find? hFirst hd
        (by simp [hName, hTypes, hBound.name])
        (by simp [name_of_searched (List.mem_of_find?_eq_some hFirst), hTypes])
      exact hOther (by rw [hEq])
    -- A function of these types could be seen before, and it did not fit as well.
    obtain ⟨e, he⟩ := Option.isSome_iff_exists.mp
      (List.find?_isSome (p := fun s => s.function.name == call.callee &&
        s.function.parameterTypes == d.function.parameterTypes) |>.mpr
          ⟨d, hSearched, by simp [hName, hBound.name]⟩)
    have hProps := List.find?_some he
    simp only [Bool.and_eq_true, beq_iff_eq] at hProps
    have hSeen : e ∈ visibleOverloads chain call.callee := by
      rw [mem_visibleOverloads_iff, hProps.2]
      exact he
    rw [← Index.fitOf_congr hProps.2]
    exact hBound.best e hSeen fun hEq => hTypes (hProps.2.symm.trans (by rw [hEq]))
  · have hVisible : i.renamedRef r d ∈
        visibleOverloads (chain.map (i.renamedContract r)) (r.nameOf t) :=
      Index.mem_visibleOverloads_renamed_iff.mpr ⟨d, hd, rfl⟩
    exact Nat.lt_of_not_le fun hFits => hFree (.overloaded hScope hSearched
      (captures_of_name hSound hSearched hName hProps) hOther hVisible hFits)

/-- A call that was bound to a function is bound to the definition in its place exactly when the name
is not captured. -/
theorem resolve_follow_iff (hSound : Collision.Sound i r)
    (hResolve : i.resolve c call = .ok (some t)) :
    (i.renamed r).resolve (i.renamedContract r c) (follow i r c call) =
      .ok (some (i.renamedRef r t)) ↔ ¬ Captured i r c call t := by
  obtain ⟨chain, hScope, hBound⟩ := Index.resolve_eq_some_iff.mp hResolve
  have hCallee : (follow i r c call).callee = r.nameOf t := follow_callee hResolve
  have hEnclosing : (i.renamed r).enclosing? (follow i r c call) =
      (i.functionAt? call.span.start).map fun p => i.renamedFunction r p.1 p.2 := by
    rw [Index.enclosing?, follow_span, Index.functionAt?_renamed, Option.map_map]
    rfl
  have hFit (d : FunctionRef) : (i.renamed r).fitOf (i.renamedContract r c)
      ((i.renamed r).enclosing? (follow i r c call)) (follow i r c call) (i.renamedRef r d) =
        i.fitOf c (i.enclosing? call) call d := by
    rw [hEnclosing]
    exact Index.fitOf_renamed follow_arguments d
  have hScope' : (i.renamed r).scopeOf (i.renamedContract r c)
      ((i.renamed r).enclosing? (follow i r c call)) (follow i r c call) =
        if call.receiver = .none ∧ i.hides c (i.enclosing? call) (r.nameOf t) = true then .ok none
        else .ok (some (chain.map (i.renamedContract r))) := by
    rw [hEnclosing, Index.scopeOf_renamed follow_receiver hScope, hCallee]
    rfl
  rw [Index.resolve_eq_some_iff, hScope']
  constructor
  · rintro ⟨chain', hChain, hBound'⟩ hCaptured
    cases hCaptured with
    | hidden hAlone hHides =>
        rw [if_pos ⟨hAlone, hHides⟩] at hChain
        cases hChain
    | overloaded hScope₂ hSearched hCaptures hOther hVisible hFits =>
        rw [hScope, Except.ok.injEq, Option.some.injEq] at hScope₂
        subst hScope₂
        split at hChain
        · cases hChain
        · cases hChain
          have hLess := hBound'.best _ (hCallee ▸ hVisible) hOther
          rw [hFit, hFit] at hLess
          exact absurd hFits (Nat.not_le.mpr hLess)
  · intro hFree
    refine ⟨chain.map (i.renamedContract r), if_neg fun h => hFree (.hidden h.1 h.2), ?_⟩
    refine ⟨?_, ?_, ?_⟩
    · rw [hCallee]
      exact visible_of_not_captured hSound hScope hBound hFree
    · rw [hFit]
      exact hBound.fits
    · intro e he hNe
      rw [hCallee] at he
      obtain ⟨d, hd, rfl⟩ := Index.mem_visibleOverloads_renamed_iff.mp he
      rw [hFit, hFit]
      exact rank_lt_of_not_captured hSound hScope hBound hFree hd hNe

end Binding

/-- Once functions have been told apart by new names and the calls have followed them, a call that
referred to a function refers to the definition in its place exactly when its name is not captured
there. -/
theorem resolve_renamed_iff {hash : String → Selector} {m : Marking} {k : Nat} {t : FunctionRef}
    (hRun : Collision.separateAll hash i = .ok m)
    (hSite : i.unit.callSites[k]? = some (c, call))
    (hResolve : i.resolve c call = .ok (some t)) :
    ∃ c' call', (i.renamed m.renames).unit.callSites[k]? = some (c', call') ∧
      ((i.renamed m.renames).resolve c' call' = .ok (some (i.renamedRef m.renames t)) ↔
        ¬ Captured i m.renames c call t) := by
  refine ⟨i.renamedContract m.renames c, follow i m.renames c call, ?_,
    resolve_follow_iff (Collision.separateAll_eq_ok hRun).1 hResolve⟩
  rw [Index.callSites_renamed, List.getElem?_map, hSite]
  rfl

/-- A variable has the name that is chosen for the function that `bar` calls. -/
def shadowed : Index :=
  let parameter : Variable := { (default : Variable) with name := some "y" }
  let function (name type : String) (calls : List Call) (start : Nat) : Function :=
    { (default : Function) with
      kind := .function, name, nameSpan := some ⟨start, start + 3⟩
      parameters := [{ parameter with type := ⟨type, default⟩ }]
      visibility := some .publicly, body := some { (default : Body) with calls }
      span := ⟨start, start + 9⟩ }
  let call : Call :=
    { callee := "foo", calleeSpan := ⟨35, 38⟩, receiver := .none
      arguments := [⟨.name "y", ⟨36, 37⟩, []⟩], span := ⟨35, 39⟩ }
  { (default : Index) with
    unit := ⟨[.contract { (default : Contract) with
      name := "A"
      stateVariables := [{ (default : Variable) with
        name := some "foo_uint256_dyn", type := ⟨"uint256", default⟩ }]
      functions := [function "foo" "uint256" [] 10, function "foo" "uint256[]" [] 20,
        function "bar" "uint256[]" [call] 30]
      span := ⟨0, 50⟩ }], default⟩ }

/-- The call refers to a function before and to none afterwards. The hash is the length of a text. -/
theorem shadowed_captured :
    ∃ m c call t, Collision.separateAll (fun text => text.length.toUInt32) shadowed = .ok m ∧
      shadowed.unit.callSites[0]? = some (c, call) ∧
      shadowed.resolve c call = .ok (some t) ∧
      (∃ c' call', (shadowed.renamed m.renames).unit.callSites[0]? = some (c', call') ∧
        call'.callee = "foo_uint256_dyn" ∧
        (shadowed.renamed m.renames).resolve c' call' = .ok none) ∧
      Captured shadowed m.renames c call t := by
  have hRun : (Collision.separateAll (fun text => text.length.toUInt32) shadowed).map
      Marking.renames = .ok [⟨⟨"A", "foo", ["uint256[]"]⟩, "foo_uint256_dyn", ⟨20, 23⟩⟩] := by
    cbv
  have hBefore : (shadowed.unit.callSites[0]?).map (fun site =>
      (shadowed.resolve site.1 site.2).map (Option.map FunctionRef.key)) =
        some (.ok (some ⟨"A", "foo", ["uint256[]"]⟩)) := by
    decide +kernel
  have hAfter : ((shadowed.renamed [⟨⟨"A", "foo", ["uint256[]"]⟩, "foo_uint256_dyn",
      ⟨20, 23⟩⟩]).unit.callSites[0]?).map (fun site => (site.2.callee,
        (shadowed.renamed [⟨⟨"A", "foo", ["uint256[]"]⟩, "foo_uint256_dyn",
          ⟨20, 23⟩⟩]).resolve site.1 site.2)) = some ("foo_uint256_dyn", .ok none) := by
    decide +kernel
  obtain ⟨m, hOk, hRenames⟩ := Outcome.map_eq_ok_iff.mp hRun
  rw [← hRenames] at hAfter
  obtain ⟨⟨c, call⟩, hSite, hKey⟩ := Option.map_eq_some_iff.mp hBefore
  obtain ⟨found, hFound, hKey⟩ := Outcome.map_eq_ok_iff.mp hKey
  obtain ⟨t, rfl, _⟩ := Option.map_eq_some_iff.mp hKey
  obtain ⟨⟨c', call'⟩, hSite', hResult⟩ := Option.map_eq_some_iff.mp hAfter
  rw [Prod.mk.injEq] at hResult
  obtain ⟨c'', call'', hSite'', hIff⟩ := resolve_renamed_iff hOk hSite hFound
  rw [hSite', Option.some.injEq, Prod.mk.injEq] at hSite''
  obtain ⟨rfl, rfl⟩ := hSite''
  refine ⟨m, c, call, t, hOk, hSite, hFound, ⟨c', call', hSite', hResult⟩, ?_⟩
  by_contra hFree
  rw [hIff.mpr hFree] at hResult
  cases hResult.2

end CallSite

end SolNorm
