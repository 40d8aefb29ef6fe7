import SolNorm.Outline.Parse
import SolNorm.Proofs.Construction.Rewrites

/-!
The parameters of a merged constructor. A base that is initialized and that nobody in the chain gives
arguments to has its parameters taken over, each under a name that is still free; the parameters of
the contract itself come after them as they are. So all names of the list differ, and the call for
such a base passes on just the names that were taken over for it.
-/

namespace SolNorm.Construction

open Outline

/-- Some contract of a chain gives arguments to a base. -/
def IsBound (chain : List Contract) (base : Contract) : Prop :=
  ∃ supplier ∈ chain, ∃ site ∈ sites supplier,
    site.1.arguments.isSome = true ∧ lastSegment site.1.name = base.name

instance (chain : List Contract) (base : Contract) : Decidable (IsBound chain base) :=
  inferInstanceAs (Decidable (∃ supplier ∈ chain, ∃ site ∈ sites supplier,
    site.1.arguments.isSome = true ∧ lastSegment site.1.name = base.name))

/-- The arguments are given at a place of a contract of the chain, for a contract of the chain. -/
structure Binding.IsGiven (chain : List Contract) (b : Binding) : Prop where
  supplier : b.supplier ∈ chain
  base : ∃ c ∈ chain, c.name = b.base
  site : ∃ site ∈ sites b.supplier, site.1.arguments = some b.arguments ∧
    lastSegment site.1.name = b.base ∧ site.2 = b.inConstructor

/-- The arguments that stand at a place, if they are for a contract of the chain. -/
def givenAt? (chain : List Contract) (place : Contract × Invocation × Bool) : Option Binding :=
  place.2.1.arguments.bind fun arguments =>
    (chain.find? fun c => c.name == lastSegment place.2.1.name).map fun base =>
      ⟨base.name, place.1, arguments, place.2.2⟩

/-- The arguments that are found at a place are those that are given there. -/
theorem bindingAt_eq_ok {contract : Contract} {chain : List Contract}
    {place : Contract × Invocation × Bool} {found : Option Binding}
    (h : bindingAt contract chain place.1 place.2 = .ok found) :
    givenAt? chain place = found := by
  unfold bindingAt at h
  unfold givenAt?
  split at h
  · rename_i arguments base hArguments hBase
    dsimp only at h
    split at h
    · simp at h
    · split at h
      · simp at h
      · rw [Except.ok.injEq] at h
        rw [hArguments, Option.bind_some, hBase, Option.map_some, h]
  · rename_i hNone
    rw [Except.ok.injEq] at h
    subst h
    cases hArguments : place.2.1.arguments with
    | none => rfl
    | some arguments =>
        cases hBase : chain.find? fun c => c.name == lastSegment place.2.1.name with
        | none => rfl
        | some base => exact (hNone arguments base hArguments hBase).elim

/-- A loop over places adds what each of them gives, and no base gets arguments twice. -/
theorem foldlM_bindAt {contract : Contract} {chain : List Contract}
    {places : List (Contract × Invocation × Bool)} {start finish : List Binding}
    (h : places.foldlM (bindAt contract chain) start = .ok finish)
    (hStart : (start.map Binding.base).Nodup) :
    (finish.map Binding.base).Nodup ∧ finish = start ++ places.filterMap (givenAt? chain) := by
  induction places generalizing start with
  | nil =>
      rw [List.foldlM_nil, Outcome.pure_eq_ok_iff] at h
      subst h
      exact ⟨hStart, (List.append_nil _).symm⟩
  | cons place rest ih =>
      rw [List.foldlM_cons, Outcome.bind_eq_ok_iff] at h
      obtain ⟨middle, hFirst, hRest⟩ := h
      obtain ⟨found, hFound, hFirst⟩ := Outcome.bind_eq_ok_iff.mp hFirst
      have hGiven := bindingAt_eq_ok hFound
      cases found with
      | none =>
          rw [Outcome.pure_eq_ok_iff] at hFirst
          subst hFirst
          rw [List.filterMap_cons_none hGiven]
          exact ih hRest hStart
      | some b =>
          dsimp only at hFirst
          split at hFirst
          · rw [Outcome.throw_bind, Outcome.throw_eq_ok_iff] at hFirst
            exact hFirst.elim
          · rename_i hNew
            rw [Outcome.pure_eq_ok_iff] at hFirst
            subst hFirst
            have hMiddle : ((start ++ [b]).map Binding.base).Nodup := by
              rw [List.map_append, List.nodup_append]
              refine ⟨hStart, List.nodup_singleton _, fun x hx y hy hSame => hNew ?_⟩
              obtain ⟨other, hOther, rfl⟩ := List.mem_map.mp hx
              rw [binding?, List.find?_isSome]
              exact ⟨other, hOther, by simpa [List.mem_singleton.mp hy] using hSame⟩
            obtain ⟨hNodup, hFinish⟩ := ih hRest hMiddle
            rw [List.filterMap_cons_some hGiven]
            exact ⟨hNodup, by rw [hFinish, List.append_assoc]; rfl⟩

/-- Among entries with different names, the one that is found by a name is the one that has it. -/
theorem find?_name_eq_some_iff {α : Type} {name : α → String} {entries : List α}
    (h : (entries.map name).Nodup) {wanted : String} {a : α} :
    entries.find? (fun x => name x == wanted) = some a ↔ a ∈ entries ∧ name a = wanted := by
  constructor
  · intro hFind
    exact ⟨List.mem_of_find?_eq_some hFind, by simpa using List.find?_some hFind⟩
  · rintro ⟨hMem, rfl⟩
    have hSome : (entries.find? fun x => name x == name a).isSome := by
      rw [List.find?_isSome]
      exact ⟨a, hMem, by simp⟩
    obtain ⟨found, hFound⟩ := Option.isSome_iff_exists.mp hSome
    have hName : name found = name a := by simpa using List.find?_some hFound
    rw [hFound, List.inj_on_of_nodup_map h (List.mem_of_find?_eq_some hFound) hMem hName]

section

variable {contract : Contract} {chain : List Contract} {bindings : List Binding}

/-- The arguments along a chain are all that its contracts give to contracts of the chain. -/
theorem mem_bindingsOf_iff (h : bindingsOf contract chain = .ok bindings) {b : Binding} :
    b ∈ bindings ↔ b.IsGiven chain := by
  obtain ⟨_, rfl⟩ := foldlM_bindAt h (by simp)
  simp only [List.nil_append, List.mem_filterMap, List.mem_flatMap, List.mem_map, givenAt?,
    Option.bind_eq_some_iff, Option.map_eq_some_iff]
  constructor
  · rintro ⟨_, ⟨supplier, hSupplier, site, hSite, rfl⟩, arguments, hArguments, base, hBase, rfl⟩
    have hName : base.name = lastSegment site.1.name := by simpa using List.find?_some hBase
    exact ⟨hSupplier, ⟨base, List.mem_of_find?_eq_some hBase, rfl⟩, site, hSite, hArguments,
      hName.symm, rfl⟩
  · rintro ⟨hSupplier, ⟨c, hc, hName⟩, site, hSite, hArguments, hFor, hWhere⟩
    have hSome : (chain.find? fun c => c.name == lastSegment site.1.name).isSome := by
      rw [List.find?_isSome]
      exact ⟨c, hc, by simp [hName, hFor]⟩
    obtain ⟨base, hBase⟩ := Option.isSome_iff_exists.mp hSome
    have hBaseName : base.name = lastSegment site.1.name := by simpa using List.find?_some hBase
    refine ⟨(b.supplier, site), ⟨b.supplier, hSupplier, site, hSite, rfl⟩, b.arguments, hArguments,
      base, hBase, ?_⟩
    rw [hBaseName, hFor, hWhere]

/-- The arguments for a base are found by its name. -/
theorem binding?_eq_some_iff (h : bindingsOf contract chain = .ok bindings) {name : String}
    {b : Binding} : binding? bindings name = some b ↔ b.IsGiven chain ∧ b.base = name := by
  rw [← mem_bindingsOf_iff h]
  exact find?_name_eq_some_iff (foldlM_bindAt h (by simp)).1

/-- A base is bound if arguments for it are written somewhere along the chain. -/
theorem binding?_isSome_iff (h : bindingsOf contract chain = .ok bindings) {base : Contract}
    (hBase : base ∈ chain) : (binding? bindings base.name).isSome = true ↔ IsBound chain base := by
  rw [Option.isSome_iff_exists]
  constructor
  · rintro ⟨b, hb⟩
    obtain ⟨⟨hSupplier, _, site, hSite, hArguments, hFor, _⟩, hName⟩ :=
      (binding?_eq_some_iff h).mp hb
    exact ⟨b.supplier, hSupplier, site, hSite, by simp [hArguments], hFor.trans hName⟩
  · rintro ⟨supplier, hSupplier, site, hSite, hSome, hFor⟩
    obtain ⟨arguments, hArguments⟩ := Option.isSome_iff_exists.mp hSome
    refine ⟨⟨base.name, supplier, arguments, site.2⟩, (binding?_eq_some_iff h).mpr ⟨?_, rfl⟩⟩
    exact ⟨hSupplier, ⟨base, hBase, rfl⟩, site, hSite, hArguments, hFor, rfl⟩

end

/-- Underscores are put behind a name until it is not taken. -/
inductive Pads (taken : List String) : String → String → Prop where
  | stop {name : String} (free : name ∉ taken) : Pads taken name name
  | pad {name result : String} (held : name ∈ taken) (rest : Pads taken (name ++ "_") result) :
      Pads taken name result

theorem Pads.not_mem {taken : List String} {name result : String} (h : Pads taken name result) :
    result ∉ taken := by
  induction h with
  | stop free => exact free
  | pad _ _ ih => exact ih

theorem Pads.length_le {taken : List String} {name result : String} (h : Pads taken name result) :
    name.length ≤ result.length := by
  induction h with
  | stop _ => exact Nat.le_refl _
  | pad _ _ ih =>
      rw [String.length_append] at ih
      omega

/-- A search that may go on for as many rounds as there are taken names of at least the length of the
wanted one ends with a free name. -/
theorem pads_freeName {taken : List String} {bound : Nat} {name : String}
    (hBound : (taken.filter fun n => name.length ≤ n.length).length ≤ bound) :
    Pads taken name (freeName taken bound name) := by
  induction bound generalizing name with
  | zero =>
      refine .stop fun hTaken => ?_
      have hIn : name ∈ taken.filter fun n => name.length ≤ n.length :=
        List.mem_filter.mpr ⟨hTaken, by simp⟩
      have hPos := List.length_pos_of_mem hIn
      omega
  | succ bound ih =>
      rw [freeName]
      split
      · rename_i hTaken
        rw [List.contains_iff_mem] at hTaken
        refine .pad hTaken (ih ?_)
        -- The name itself is one of the names that were long enough before and are not any more.
        have hFewer : (taken.filter fun n => (name ++ "_").length ≤ n.length).length <
            (taken.filter fun n => name.length ≤ n.length).length := by
          have hSub : taken.filter (fun n => (name ++ "_").length ≤ n.length) =
              (taken.filter fun n => name.length ≤ n.length).filter
                fun n => (name ++ "_").length ≤ n.length := by
            rw [List.filter_filter]
            refine List.filter_congr fun n _ => ?_
            rw [String.length_append, Bool.eq_iff_iff]
            simp only [decide_eq_true_eq, Bool.and_eq_true]
            omega
          rw [hSub]
          refine List.length_filter_lt_length_iff_exists.mpr ⟨name, ?_, ?_⟩
          · exact List.mem_filter.mpr ⟨hTaken, by simp⟩
          · simp [String.length_append]
        omega
      · rename_i hFree
        exact .stop (by simpa using hFree)

/-- There are never more names in the way than the search goes through. -/
theorem pads_of_length (taken : List String) (name : String) :
    Pads taken name (freeName taken taken.length name) :=
  pads_freeName (List.length_filter_le _ _)

/-- The name that a parameter of a base would have if nothing else was in the way. -/
def wantedName (taken : List String) (base : String) (count : Nat) : Option String → String
  | some name => if taken.contains name then s!"{name}_{base}" else name
  | none => s!"arg{count}"

/-- A name that is exposed is the wanted one, padded until it is free. -/
theorem pads_exposedName (taken : List String) (base : String) (count : Nat)
    (name : Option String) :
    Pads taken (wantedName taken base count name) (exposedName taken base count name) := by
  cases name <;> exact pads_of_length _ _

/-- A parameter of a merged constructor stands for a parameter of a base: it is declared with the same
type and place, under a name of its own. The name is not empty, unless the parameter of the base is
named so. -/
structure Exposed.StandsFor (text : String) (x : Exposed) (base : String) (v : Variable) : Prop where
  base : x.base = base
  declared : x.declaration = declarationText text v x.name
  named : x.name = "" → v.name = some ""

theorem standsFor_expose (text : String) (taken : List String) (count : Nat) (base : String)
    (v : Variable) :
    let name := exposedName taken base count v.name
    Exposed.StandsFor text ⟨base, name, declarationText text v name⟩ base v := by
  refine ⟨rfl, rfl, fun hEmpty => ?_⟩
  have hLength := (pads_exposedName taken base count v.name).length_le
  dsimp only at hEmpty
  rw [hEmpty, String.length_empty, Nat.le_zero, String.length_eq_zero_iff] at hLength
  cases hName : v.name with
  | none =>
      rw [hName, wantedName] at hLength
      simp [toString] at hLength
  | some name =>
      rw [hName, wantedName] at hLength
      split at hLength
      · simp [toString] at hLength
      · rw [hLength]

/-- Parameters are taken over one after the other. Each gets an entry of its own, under a name that
neither an earlier one nor a parameter of the contract itself has. -/
theorem foldl_expose (text : String) (own : List String) (parameters : List (String × Variable)) :
    let exposed := parameters.foldl (expose text own) []
    List.Forall₂ (fun p x => x.StandsFor text p.1 p.2) parameters exposed ∧
      (exposed.map Exposed.name).Nodup ∧ ∀ x ∈ exposed, x.name ∉ own := by
  induction parameters using List.reverseRecOn with
  | nil => simp
  | append_singleton parameters p ih =>
      obtain ⟨hEach, hNodup, hOwn⟩ := ih
      simp only [List.foldl_append, List.foldl_cons, List.foldl_nil]
      generalize parameters.foldl (expose text own) [] = exposed at hEach hNodup hOwn ⊢
      have hFree := (pads_exposedName (exposed.map Exposed.name ++ own) p.1 exposed.length
        p.2.name).not_mem
      rw [List.mem_append, not_or] at hFree
      refine ⟨List.rel_append hEach (.cons (standsFor_expose ..) .nil), ?_, ?_⟩
      · rw [expose, List.map_append, List.nodup_append]
        refine ⟨hNodup, List.nodup_singleton _, fun x hx y hy hSame => ?_⟩
        rw [hSame, List.mem_singleton.mp hy] at hx
        exact hFree.1 hx
      · intro x hx
        rcases List.mem_append.mp hx with hx | hx
        · exact hOwn x hx
        · rw [List.mem_singleton.mp hx]
          exact hFree.2

theorem IsPlanned.isBound_iff {i : Index} {contract : Contract} {isInitialized : Contract → Bool}
    {p : Plan} {bases : List Contract} {derived : Contract} {bindings : List Binding}
    (h : IsPlanned i contract isInitialized p bases derived bindings) {base : Contract}
    (hBase : base ∈ bases) :
    (binding? bindings base.name).isSome = true ↔ IsBound (bases ++ [derived]) base :=
  binding?_isSome_iff h.given (List.mem_append_left _ hBase)

/-- The parameters of the initialized bases that nobody in a chain gives arguments to, in the order of
the chain. -/
def openParameters (chain : List Contract) (isInitialized : Contract → Bool) :
    List (Contract × Variable) :=
  (chain.dropLast.filter fun b => isInitialized b && !decide (IsBound chain b)).flatMap fun b =>
    (parametersOf b).map fun v => (b, v)

/-- The parameters that a merged constructor takes over are those that nobody gives arguments to. -/
theorem IsPlanned.exposed_eq {i : Index} {contract : Contract} {isInitialized : Contract → Bool}
    {p : Plan} {bases : List Contract} {derived : Contract} {bindings : List Binding}
    (h : IsPlanned i contract isInitialized p bases derived bindings) :
    exposedParameters i.text contract bases bindings isInitialized =
      ((openParameters (bases ++ [derived]) isInitialized).map fun p => (p.1.name, p.2)).foldl
        (expose i.text ((parametersOf contract).filterMap Variable.name)) [] := by
  have hOpen : bases.filter (fun b => isInitialized b && (binding? bindings b.name).isNone) =
      bases.filter fun b => isInitialized b && !decide (IsBound (bases ++ [derived]) b) := by
    refine List.filter_congr fun b hb => ?_
    have hBound : (binding? bindings b.name).isSome = decide (IsBound (bases ++ [derived]) b) :=
      Bool.eq_iff_iff.mpr ((h.isBound_iff hb).trans decide_eq_true_iff.symm)
    rw [← Option.not_isSome, hBound]
  rw [exposedParameters, openParameters, List.dropLast_concat, hOpen, List.map_flatMap]
  simp only [List.map_map, Function.comp_def]

/-- A base that nobody gives arguments to is given what is taken over for it. -/
theorem IsPlanned.supplied_of_not_isBound {i : Index} {contract : Contract}
    {isInitialized : Contract → Bool} {p : Plan} {bases : List Contract} {derived : Contract}
    {bindings : List Binding} (h : IsPlanned i contract isInitialized p bases derived bindings)
    (exposed : List Exposed) {base : Contract} (hBase : base ∈ bases)
    (hOpen : ¬ IsBound (bases ++ [derived]) base) :
    supplied (suppliesOf i.text contract (bases ++ [derived]) bindings exposed) base =
      (exposed.filter fun x => x.base == base.name).map Exposed.name := by
  obtain ⟨s, before, hFind, hValues⟩ := find?_suppliesOf i.text contract bindings exposed
    h.nodup (List.mem_append_left _ hBase)
  have hNone : binding? bindings base.name = none := by
    rw [← Option.not_isSome_iff_eq_none, h.isBound_iff hBase]
    exact hOpen
  rw [supplied, hFind, Option.map_some, Option.getD_some, hValues, argumentsFor,
    if_neg (by simpa using h.name_ne hBase), hNone]

/-- The names of a merged constructor's parameters: those that are taken over and its own. -/
def mergedNames (exposed : List Exposed) (contract : Contract) : List String :=
  exposed.map Exposed.name ++ (parametersOf contract).filterMap Variable.name

/-- A merged constructor takes over the parameters that nobody gives arguments to. -/
structure TakesOver (i : Index) (contract : Contract) (chain : List Contract)
    (isInitialized : Contract → Bool) (report : Report) (exposed : List Exposed)
    (calls : List Initialization) : Prop where
  /-- Every open parameter is declared once, in the order of the chain. -/
  each : List.Forall₂ (fun p x => x.StandsFor i.text p.1.name p.2)
    (openParameters chain isInitialized) exposed
  /-- The parameters of the contract itself follow as they are. -/
  declared : report.parameters = exposed.map Exposed.declaration ++
    (parametersOf contract).map fun v => v.span.slice i.text
  distinct : (exposed.map Exposed.name ++ (parametersOf contract).filterMap Variable.name).Nodup
  order : calls.map Initialization.source = constructorsOf (chain.dropLast.filter isInitialized)
  reported : report.initializers = calls.map Initialization.text
  /-- A base that nobody gives arguments to is given what was taken over for it. -/
  passed : ∀ x ∈ calls, ¬ IsBound chain x.base →
    x.arguments = (exposed.filter fun y => y.base == x.base.name).map Exposed.name

/-- The parameters of every merged constructor are in order: one for each open parameter of a base,
then those of the contract, all with different names. The search for a free name always ends. -/
theorem takesOver_of_plan {i : Index} {contract : Contract} {isInitialized : Contract → Bool}
    {p : Plan} (h : plan i contract isInitialized = .ok p)
    (hOwn : ((parametersOf contract).filterMap Variable.name).Nodup) :
    i.linearize contract.name = .ok p.chain ∧
      (∃ exposed calls, TakesOver i contract p.chain isInitialized p.report exposed calls) ∧
      ∀ taken name, Pads taken name (freeName taken taken.length name) := by
  obtain ⟨bases, derived, bindings, hPlanned⟩ := isPlanned_of_plan h
  obtain ⟨hEach, hNodup, hFree⟩ := foldl_expose i.text
    ((parametersOf contract).filterMap Variable.name)
    ((openParameters (bases ++ [derived]) isInitialized).map fun p => (p.1.name, p.2))
  rw [← hPlanned.exposed_eq, List.forall₂_map_left_iff] at hEach
  rw [← hPlanned.exposed_eq] at hNodup hFree
  have hParameters := hPlanned.parameters
  have hInitializers := hPlanned.initializers
  generalize hExposed : exposedParameters i.text contract bases bindings isInitialized = exposed at *
  rw [hPlanned.chain]
  refine ⟨hPlanned.order, ⟨exposed, _, hEach, hParameters, ?_, ?_, hInitializers, ?_⟩, pads_of_length⟩
  · rw [List.nodup_append]
    refine ⟨hNodup, hOwn, fun x hx y hy hSame => ?_⟩
    obtain ⟨z, hz, rfl⟩ := List.mem_map.mp hx
    exact hFree z hz (hSame ▸ hy)
  · rw [map_source_callOf, List.dropLast_concat]
  · intro x hx hOpen
    obtain ⟨⟨base, f⟩, hMem, rfl⟩ := List.mem_map.mp hx
    have hBase := (List.mem_filter.mp (mem_constructorsOf_iff.mp hMem).1).1
    exact hPlanned.supplied_of_not_isBound exposed hBase hOpen

/-- The index of a text, if the text can be parsed. -/
def indexOf (text : String) : Index :=
  .ofSource (.ofText text) ((Outline.parse text).toOption.getD default)

/-- Two bases whose parameters get into each other's way: `x` is the name of the contract's own
parameter, `x_B` is what the second base would make of it, and `arg3` is what an unnamed parameter is
called. -/
def crowded : Index :=
  indexOf ("contract A \x7b constructor(uint x, uint x_B) \x7b\x7d \x7d " ++
    "contract B \x7b constructor(uint x, uint, uint arg3) \x7b\x7d \x7d " ++
    "contract C is A, B \x7b constructor(uint x) \x7b\x7d \x7d")

/-- All six parameters get different names. -/
theorem crowded_takesOver : ∃ c p exposed calls, crowded.contract? "C" = some c ∧
    plan crowded c (fun _ => true) = .ok p ∧
    p.report.parameters =
      ["uint x_A", "uint x_B", "uint x_B_", "uint arg3", "uint arg3_B", "uint x"] ∧
    p.report.initializers =
      ["__constructor_A(x_A, x_B)", "__constructor_B(x_B_, arg3, arg3_B)"] ∧
    ((parametersOf c).filterMap Variable.name).Nodup ∧
    TakesOver crowded c p.chain (fun _ => true) p.report exposed calls := by
  have hPlan : ∃ c, crowded.contract? "C" = some c ∧
      ((parametersOf c).filterMap Variable.name).Nodup ∧
      (plan crowded c fun _ => true).map (fun p => (p.report.parameters, p.report.initializers)) =
        .ok (["uint x_A", "uint x_B", "uint x_B_", "uint arg3", "uint arg3_B", "uint x"],
          ["__constructor_A(x_A, x_B)", "__constructor_B(x_B_, arg3, arg3_B)"]) := by
    refine ⟨(crowded.contract? "C").getD default, ?_⟩
    decide +kernel
  obtain ⟨c, hFound, hOwn, hPlan⟩ := hPlan
  obtain ⟨p, hOk, hReport⟩ := Outcome.map_eq_ok_iff.mp hPlan
  rw [Prod.mk.injEq] at hReport
  obtain ⟨_, ⟨exposed, calls, hTakes⟩, _⟩ := takesOver_of_plan hOk hOwn
  exact ⟨c, p, exposed, calls, hFound, hOk, hReport.1, hReport.2, hOwn, hTakes⟩

end SolNorm.Construction
