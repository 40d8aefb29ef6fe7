import SolNorm.Proofs.Construction.Substitution

/-!
Names that change their meaning when constructors are merged. Arguments for bases and the body of a
contract's own constructor come to stand under the parameters of the merged constructor. New names for
parameters that are taken over are only kept clear of each other and of the contract's own parameters,
so a name that meant a variable, a constant or a function can be that of a parameter afterwards.
-/

namespace SolNorm.Construction

open Outline

/-- The names under which parameters are taken over, one after the other. -/
def exposedNames (own : List String) (parameters : List (String × Variable)) : List String :=
  parameters.foldl (fun names p =>
    names ++ [exposedName (names ++ own) p.1 names.length p.2.name]) []

/-- The step: a name for one more parameter is kept clear of those before it. -/
theorem exposedNames_append (own : List String) (parameters : List (String × Variable))
    (p : String × Variable) :
    exposedNames own (parameters ++ [p]) = exposedNames own parameters ++
      [exposedName (exposedNames own parameters ++ own) p.1 (exposedNames own parameters).length
        p.2.name] := by
  rw [exposedNames, List.foldl_append]
  rfl

theorem length_exposedNames (own : List String) (parameters : List (String × Variable)) :
    (exposedNames own parameters).length = parameters.length := by
  induction parameters using List.reverseRecOn with
  | nil => rfl
  | append_singleton parameters p ih => simp [exposedNames_append, ih]

/-- The parameters that are taken over have these names. -/
theorem map_name_foldl_expose (text : String) (own : List String)
    (parameters : List (String × Variable)) :
    (parameters.foldl (expose text own) []).map Exposed.name = exposedNames own parameters := by
  induction parameters using List.reverseRecOn with
  | nil => rfl
  | append_singleton parameters p ih =>
      have hLength : (parameters.foldl (expose text own) []).length =
          (exposedNames own parameters).length := by
        rw [← ih, List.length_map]
      rw [List.foldl_append, List.foldl_cons, List.foldl_nil, exposedNames_append, ← ih, expose,
        List.map_append, List.map_cons, List.map_nil, hLength, ← ih]

theorem Pads.unique {taken : List String} {name first second : String} (h : Pads taken name first)
    (h' : Pads taken name second) : first = second := by
  induction h with
  | stop free =>
      cases h' with
      | stop _ => rfl
      | pad held _ => exact absurd held free
  | pad held _ ih =>
      cases h' with
      | stop free => exact absurd held free
      | pad _ rest => exact ih rest

/-- A name is made up for a parameter that has none, or whose own name is taken: by a contract's own
parameter or by one that was taken over before. -/
def IsMadeUp (own : List String) (parameters : List (String × Variable)) (name : String) : Prop :=
  ∃ before p after, parameters = before ++ p :: after ∧
    (∀ n, p.2.name = some n → n ∈ exposedNames own before ++ own) ∧
    Pads (exposedNames own before ++ own)
      (wantedName (exposedNames own before ++ own) p.1 before.length p.2.name) name

/-- A name is made up for the last parameter if its own is taken or it has none. -/
theorem isMadeUp_append {own : List String} {parameters : List (String × Variable)}
    {p : String × Variable} {name : String} :
    IsMadeUp own (parameters ++ [p]) name ↔ IsMadeUp own parameters name ∨
      (∀ n, p.2.name = some n → n ∈ exposedNames own parameters ++ own) ∧
        name = exposedName (exposedNames own parameters ++ own) p.1 parameters.length p.2.name := by
  constructor
  · rintro ⟨before, q, after, hSplit, hTaken, hPads⟩
    cases after using List.reverseRecOn with
    | nil =>
        obtain ⟨rfl, hSame⟩ := List.append_inj' hSplit rfl
        obtain rfl : p = q := List.singleton_inj.mp hSame
        exact .inr ⟨hTaken, hPads.unique (pads_exposedName ..)⟩
    | append_singleton after last =>
        rw [← List.cons_append, ← List.append_assoc] at hSplit
        obtain ⟨rfl, _⟩ := List.append_inj' hSplit rfl
        exact .inl ⟨before, q, after, rfl, hTaken, hPads⟩
  · rintro (⟨before, q, after, rfl, hTaken, hPads⟩ | ⟨hTaken, rfl⟩)
    · exact ⟨before, q, after ++ [p], by simp, hTaken, hPads⟩
    · exact ⟨parameters, p, [], rfl, hTaken, pads_exposedName ..⟩

/-- A name that is not taken is kept. -/
theorem exposedName_of_not_mem {taken : List String} {name : String} (base : String) (count : Nat)
    (h : name ∉ taken) : exposedName taken base count (some name) = name := by
  have hPads := pads_exposedName taken base count (some name)
  rw [wantedName, if_neg (by simpa using h)] at hPads
  exact hPads.unique (.stop h)

/-- The names of a merged constructor's parameters are the contract's own, those of the parameters that
are taken over, and those that are made up for them. -/
theorem mem_exposedNames_iff {own : List String} {parameters : List (String × Variable)}
    {name : String} :
    name ∈ exposedNames own parameters ++ own ↔
      name ∈ own ∨ (∃ p ∈ parameters, p.2.name = some name) ∨ IsMadeUp own parameters name := by
  induction parameters using List.reverseRecOn with
  | nil => simp [exposedNames, IsMadeUp]
  | append_singleton parameters p ih =>
      have hStep : name ∈ exposedNames own (parameters ++ [p]) ++ own ↔
          name ∈ exposedNames own parameters ++ own ∨
            name = exposedName (exposedNames own parameters ++ own) p.1 parameters.length
              p.2.name := by
        rw [exposedNames_append, length_exposedNames]
        simp only [List.mem_append, List.mem_singleton]
        tauto
      have hMember : (∃ q ∈ parameters ++ [p], q.2.name = some name) ↔
          (∃ q ∈ parameters, q.2.name = some name) ∨ p.2.name = some name := by
        simp [or_and_right, exists_or]
      rw [hStep, isMadeUp_append, hMember]
      constructor
      · rintro (hBefore | hNew)
        · rcases ih.mp hBefore with hOwn | hOpen | hMade
          · exact .inl hOwn
          · exact .inr (.inl (.inl hOpen))
          · exact .inr (.inr (.inl hMade))
        · by_cases hTaken : ∀ n, p.2.name = some n → n ∈ exposedNames own parameters ++ own
          · exact .inr (.inr (.inr ⟨hTaken, hNew⟩))
          · push Not at hTaken
            obtain ⟨n, hName, hFree⟩ := hTaken
            rw [hName, exposedName_of_not_mem _ _ hFree] at hNew
            exact .inr (.inl (.inr (hNew ▸ hName)))
      · rintro (hOwn | (hOpen | hName) | hMade | ⟨_, hNew⟩)
        · exact .inl (ih.mpr (.inl hOwn))
        · exact .inl (ih.mpr (.inr (.inl hOpen)))
        · by_cases hTaken : name ∈ exposedNames own parameters ++ own
          · exact .inl hTaken
          · rw [hName, exposedName_of_not_mem _ _ hTaken]
            exact .inr rfl
        · exact .inl (ih.mpr (.inr (.inr hMade)))
        · exact .inr hNew

/-- Whether a merged constructor calls for the constructor of a base. -/
def Rewrite.initializes (r : Rewrite) (base : Contract) : Bool := r.calls.any fun x => x.base == base

/-- A name in an argument of a call, as it is written for the base. It is no parameter there. -/
structure Rewrite.Passes (chain : List Contract) (r : Rewrite) (b : Binding) (x : Ident) : Prop where
  given : b.IsGiven chain
  called : ∃ call ∈ r.calls, b.base = call.base.name
  mentioned : ∃ e ∈ b.arguments, x ∈ e.idents
  free : ¬ b.IsParameter x

/-- A name in the body of the contract's own constructor that is neither a parameter nor a local
variable there. -/
def Rewrite.Mentions (r : Rewrite) (x : Ident) : Prop :=
  ∃ f body, r.contract.constructor? = some f ∧ f.body = some body ∧ x ∈ body.idents ∧
    x.name ∉ (f.parameters ++ body.locals).filterMap Variable.name

/-- A name is written where the contract's own parameters can be used: in the body of its constructor
or in the header. -/
def Rewrite.HoldsInside (chain : List Contract) (r : Rewrite) (x : Ident) : Prop :=
  r.Mentions x ∨ ∃ b, r.Passes chain b x ∧ b.supplier = r.contract ∧ b.inConstructor = true

/-- A name is written in another contract, or where the contract names its bases. -/
def Rewrite.HoldsOutside (chain : List Contract) (r : Rewrite) (x : Ident) : Prop :=
  ∃ b, r.Passes chain b x ∧ (b.supplier ≠ r.contract ∨ b.inConstructor = false)

/-- What is written where the contract's own parameters can be used is none of them. -/
theorem Rewrite.HoldsInside.not_mem {chain : List Contract} {r : Rewrite} {x : Ident}
    (h : r.HoldsInside chain x) : x.name ∉ (parametersOf r.contract).filterMap Variable.name := by
  rcases h with ⟨f, body, hCtor, _, _, hFree⟩ | ⟨b, hPasses, hSupplier, hHeader⟩
  · rw [List.filterMap_append, List.mem_append, not_or] at hFree
    rw [parametersOf, hCtor]
    exact hFree.1
  · exact fun hName => hPasses.free ⟨hHeader, hSupplier ▸ hName⟩

/-- The parameters of a merged constructor: those of the bases that it calls for and that nobody gives
arguments to, and the contract's own. -/
structure Rewrite.Takes (i : Index) (chain : List Contract) (exposed : List Exposed) (r : Rewrite) :
    Prop where
  order : i.linearize r.contract.name = .ok chain
  taken : List.Forall₂ (fun p x => x.StandsFor i.text p.1.name p.2)
    (openParameters chain r.initializes) exposed
  declared : r.parameters = exposed.map Exposed.declaration ++
    (parametersOf r.contract).map fun v => v.span.slice i.text

/-- A name is given to a parameter that is taken over: it is the parameter's own name, or it is made
up for the parameter. -/
def Rewrite.GivesAway (chain : List Contract) (r : Rewrite) (name : String) : Prop :=
  (∃ p ∈ openParameters chain r.initializes, p.2.name = some name) ∨
    IsMadeUp ((parametersOf r.contract).filterMap Variable.name)
      ((openParameters chain r.initializes).map fun p => (p.1.name, p.2)) name

/-- Entries that give nothing may be kept or left out. -/
theorem flatMap_filter_congr {α β : Type} {l : List α} {p q : α → Bool} {f : α → List β}
    (h : ∀ a ∈ l, f a ≠ [] → p a = q a) : (l.filter p).flatMap f = (l.filter q).flatMap f := by
  induction l with
  | nil => rfl
  | cons a rest ih =>
      obtain ⟨hFirst, hRest⟩ := List.forall_mem_cons.mp h
      by_cases hEmpty : f a = []
      · cases hp : p a <;> cases hq : q a <;> simp [hp, hq, hEmpty, ih hRest]
      · have hSame := hFirst hEmpty
        cases hq : q a <;> simp [hSame, hq, ih hRest]

/-- The parameters that are taken over are those of the bases that are called for. -/
theorem openParameters_initializes {chain : List Contract} {isInitialized : Contract → Bool}
    {r : Rewrite} (h : r.calls.map Initialization.source =
      constructorsOf (chain.dropLast.filter isInitialized)) :
    openParameters chain r.initializes = openParameters chain isInitialized := by
  refine flatMap_filter_congr fun b hb hSome => ?_
  obtain ⟨f, hf⟩ : ∃ f, b.constructor? = some f := by
    cases hCtor : b.constructor? with
    | none => exact (hSome (by simp [parametersOf, hCtor])).elim
    | some f => exact ⟨f, rfl⟩
  have hCalled : r.initializes b = true ↔ isInitialized b = true := by
    rw [Rewrite.initializes, List.any_eq_true]
    constructor
    · rintro ⟨x, hx, hSame⟩
      have hSource := List.mem_map_of_mem (f := Initialization.source) hx
      rw [h, mem_constructorsOf_iff, List.mem_filter] at hSource
      exact beq_iff_eq.mp hSame ▸ hSource.1.2
    · intro hInit
      have hSource : (b, f) ∈ r.calls.map Initialization.source := by
        rw [h, mem_constructorsOf_iff]
        exact ⟨List.mem_filter.mpr ⟨hb, hInit⟩, hf⟩
      obtain ⟨x, hx, hSame⟩ := List.mem_map.mp hSource
      exact ⟨x, hx, beq_iff_eq.mpr (Prod.mk.inj hSame).1⟩
  rw [Bool.eq_iff_iff.mpr hCalled]

/-- What a plan takes over has the names that are exposed for the open parameters. -/
theorem Rewrite.IsPlanned.takes {i : Index} {isInitialized : Contract → Bool} {r : Rewrite} {p : Plan}
    (h : r.IsPlanned i isInitialized p) :
    ∃ exposed, r.Takes i p.chain exposed ∧
      exposed.map Exposed.name = exposedNames ((parametersOf r.contract).filterMap Variable.name)
        ((openParameters p.chain r.initializes).map fun p => (p.1.name, p.2)) := by
  obtain ⟨bases, derived, bindings, hPlanned⟩ := isPlanned_of_plan h.planned
  have hCalls := h.calls
  rw [hPlanned.chain] at hCalls ⊢
  have hTaken := (foldl_expose i.text ((parametersOf r.contract).filterMap Variable.name)
    ((openParameters (bases ++ [derived]) isInitialized).map fun p => (p.1.name, p.2))).1
  rw [List.forall₂_map_left_iff, ← openParameters_initializes hCalls] at hTaken
  refine ⟨_, ⟨hPlanned.order, hTaken, ?_⟩, map_name_foldl_expose ..⟩
  rw [h.parameters, hPlanned.parameters, hPlanned.exposed_eq, openParameters_initializes hCalls]

/-- The names of the parameters of a merged constructor. -/
theorem Rewrite.IsPlanned.mem_mergedNames_iff {i : Index} {isInitialized : Contract → Bool}
    {r : Rewrite} {p : Plan} (h : r.IsPlanned i isInitialized p) :
    ∃ exposed, r.Takes i p.chain exposed ∧ ∀ name, name ∈ mergedNames exposed r.contract ↔
      name ∈ (parametersOf r.contract).filterMap Variable.name ∨ r.GivesAway p.chain name := by
  obtain ⟨exposed, hTakes, hNames⟩ := h.takes
  refine ⟨exposed, hTakes, fun name => ?_⟩
  rw [mergedNames, hNames, mem_exposedNames_iff, Rewrite.GivesAway]
  simp only [List.mem_map, exists_exists_and_eq_and]

/-- A base has a parameter with the name of a variable of the contract. -/
def overlaid : Index :=
  indexOf ("contract A \x7b constructor(uint x) \x7b\x7d \x7d " ++
    "contract B is A \x7b uint x; constructor() \x7b x = 1; \x7d \x7d")

end SolNorm.Construction
