import SolNorm.Proofs.Construction.Parameters

/-!
The order in which a contract is constructed. Before constructors are merged, the constructors along
the chain of the main contract run one after the other. Afterwards its single constructor calls the
functions that the others have become, before it goes on with its own body. Nothing is done to keep the
names of these functions apart from what the contracts declare themselves, so a call can mean something
else than the constructor that it was written for.
-/

namespace SolNorm.Construction

open Outline

/-- An edit turns the header of the constructor into that of the called function. Its parameters and
the modifiers that are no calls of bases stay. -/
def Initialization.DefinedBy (i : Index) (x : Initialization) (e : Edit) : Prop :=
  ∃ body, x.ctor.body = some body ∧ e.span = ⟨x.ctor.span.start, body.span.start⟩ ∧
    e.replacement = "function " ++ x.name ++ x.ctor.paramsSpan.slice i.text ++ " internal" ++
      String.join ((x.ctor.modifiers.filter fun m => (i.contract? m.name).isNone).map
        fun m => " " ++ m.span.slice i.text) ++ " "

/-- Whether an edit writes the header of a function. -/
def isDefinition (e : Edit) : Bool := "function ".toList.isPrefixOf e.replacement.toList

/-- The constructor of a contract starts with calls for the constructors of its bases, and the edits
make the called functions of these constructors. -/
structure CallsBases (i : Index) (main : Contract) (bases : List Contract) (report : Report)
    (edits : List Edit) (exposed : List Exposed) (calls : List Initialization) : Prop where
  /-- There is a call for every constructor of a base, in the order of the chain. -/
  order : calls.map Initialization.source = constructorsOf bases
  /-- No function is called twice. -/
  distinct : (calls.map Initialization.name).Nodup
  /-- A call has as many arguments as the constructor has parameters. -/
  arity : ∀ x ∈ calls, x.arguments.length = x.ctor.parameters.length
  reported : report.initializers = calls.map Initialization.text
  /-- The parameters are those that nobody gives arguments to, and the contract's own. -/
  taken : List.Forall₂ (fun p x => x.StandsFor i.text p.1.name p.2)
    (openParameters (bases ++ [main]) fun _ => true) exposed
  declared : report.parameters = exposed.map Exposed.declaration ++
    (parametersOf main).map fun v => v.span.slice i.text
  /-- The edits that write headers of functions are one for each call. -/
  defined : List.Forall₂ (Initialization.DefinedBy i) calls (edits.filter isDefinition)
  /-- The calls stand before the body of the contract's own constructor. Everything else that is
  edited is a header, what was given to a converted base, or the constructor of a contract of another
  name. -/
  placed : ∃ own others, WrittenBy i (constructorsOf bases) (⟨main, report.parameters, calls, own⟩ ::
      others) edits ∧
    ∀ r ∈ others, r.contract ∈ i.contracts ∧ r.contract.name ≠ main.name

/-- A function that a contract has after a merge, with the body that it runs. -/
structure Routine where
  name : String
  types : List String
  source : Contract × Function

namespace Routine

def ofFunction (name : String) (c : Contract) (f : Function) : Routine :=
  ⟨name, f.parameters.map fun v => v.type.text, (c, f)⟩

/-- The function that the constructor of a base becomes. -/
def ofConstructor (x : Contract × Function) : Routine :=
  ofFunction (initializerName x.1.name) x.1 x.2

/-- Whether a call names the function and has as many arguments as it has parameters. -/
def isFor (x : Initialization) (r : Routine) : Bool :=
  r.name == x.name && r.types.length == x.arguments.length

end Routine

/-- The functions that a contract declares. -/
def ownRoutines (c : Contract) : List Routine :=
  (c.functions.filter fun f => f.kind == .function).map fun f => .ofFunction f.name c f

/-- The functions of a contract after a merge: the one that its constructor has become, if it is among
those that are converted, and those that it declares. -/
def routinesOf (converted : List (Contract × Function)) (c : Contract) : List Routine :=
  ((constructorsOf [c]).filter converted.contains).map Routine.ofConstructor ++ ownRoutines c

/-- The functions along a chain after a merge. -/
def routinesAlong (converted : List (Contract × Function)) (chain : List Contract) : List Routine :=
  chain.flatMap (routinesOf converted)

/-- How a call finds its function among those of its name and number of parameters along a chain. That
depends on the types of the arguments, which are not known here. It is only known that a single function
is found, and that one is never found if it or a later contract of the chain has another one with the
same types of parameters, which overrides it or stands beside it. -/
structure Overloading where
  pick : Initialization → List Routine → Option Routine
  mem : ∀ x routines r, pick x routines = some r → r ∈ routines
  single : ∀ x r, pick x [r] = some r
  latest : ∀ x before r between s after, r.types = s.types →
    pick x (before ++ r :: between ++ s :: after) ≠ some r

/-- The entry of a list that has no other. -/
def only? {α : Type} : List α → Option α
  | [a] => some a
  | _ => none

theorem only?_eq_some_iff {α : Type} {l : List α} {a : α} : only? l = some a ↔ l = [a] := by
  rcases l with _ | ⟨b, _ | ⟨c, rest⟩⟩ <;> simp [only?]

/-- A call that could mean several functions is refused. -/
def Overloading.strict : Overloading where
  pick _ := only?
  mem x routines r h := by
    rw [only?_eq_some_iff.mp h]
    exact List.mem_singleton_self r
  single _ _ := rfl
  latest x before r between s after _ h := by
    have hLength := congrArg List.length (only?_eq_some_iff.mp h)
    simp only [List.length_append, List.length_cons, List.length_nil] at hLength
    omega

/-- What else can be meant by a name in the constructor of the last contract of a chain: its
parameters, and variables, modifiers and types of the contracts. -/
def otherNames (exposed : List Exposed) (main : Contract) (chain : List Contract) : List String :=
  mergedNames exposed main ++ chain.flatMap fun c =>
    c.stateVariables.filterMap Variable.name ++
      (c.functions.filter fun f => f.kind == .modifier).map Function.name ++ c.typeNames

/-- The bodies that calls run, by the functions that there are and the names that mean something
else. -/
def bodiesCalled (o : Overloading) (hidden : List String) (routines : List Routine)
    (calls : List Initialization) : List (Contract × Function) :=
  calls.filterMap fun x =>
    if hidden.contains x.name then none
    else (o.pick x (routines.filter (Routine.isFor x))).map Routine.source

/-- The bodies that run when the last contract of a chain is deployed after a merge. -/
def constructionAfter (o : Overloading) (exposed : List Exposed) (main : Contract)
    (bases : List Contract) (calls : List Initialization) : List (Contract × Function) :=
  bodiesCalled o (otherNames exposed main (bases ++ [main]))
    (routinesAlong (constructorsOf bases) (bases ++ [main])) calls ++ constructorsOf [main]

/-- No contract of a chain declares a function under a name with a number of parameters. -/
def IsFree (chain : List Contract) (name : String) (count : Nat) : Prop :=
  ∀ c ∈ chain, ∀ f ∈ c.functions, f.kind = .function → f.name = name → f.parameters.length ≠ count

instance (chain : List Contract) (name : String) (count : Nat) : Decidable (IsFree chain name count) :=
  inferInstanceAs (Decidable (∀ c ∈ chain, _))

/-- A contract or one behind it in a chain declares a function with the name and the parameters that
the contract's constructor has as a function. -/
def IsOverridden (chain : List Contract) (x : Contract × Function) : Prop :=
  ∃ before after, chain = before ++ x.1 :: after ∧ ∃ c ∈ x.1 :: after, ∃ f ∈ c.functions,
    f.kind = .function ∧ f.name = initializerName x.1.name ∧
      (f.parameters.map fun v => v.type.text) = x.2.parameters.map fun v => v.type.text

/-- Writing a constructor does not write the header of a function. -/
theorem isDefinition_of_startsWith {i : Index} {converted : List String} {c : Contract}
    {parameters calls : List String} {edits : List Edit}
    (h : StartsWith i converted c parameters calls edits) : ∀ e ∈ edits, isDefinition e = false := by
  -- Headers of functions start with an `f`, and none of these texts does.
  have hHead (e : Edit) (hDef : e.replacement.toList.head? ≠ some 'f') :
      isDefinition e = false := by
    rw [isDefinition, Bool.eq_false_iff]
    intro hPrefix
    obtain ⟨rest, hRest⟩ := List.isPrefixOf_iff_prefix.mp hPrefix
    exact hDef (by rw [← hRest]; rfl)
  unfold StartsWith at h
  dsimp only at h
  intro e he
  apply hHead
  split at h
  · obtain ⟨body, _, rfl⟩ := h
    simp only [List.mem_cons, List.not_mem_nil, or_false] at he
    rcases he with rfl | rfl
    · simp
    · cases calls <;> simp
  · subst h
    rw [List.mem_singleton.mp he]
    simp

/-- The edit that converts a constructor writes the header of the function that it becomes. -/
theorem definedBy_of_convert {i : Index} {x : Initialization} {e : Edit}
    (h : convert i x.base x.ctor = .ok e) : x.DefinedBy i e := by
  obtain ⟨span, hBody, rfl⟩ := Outcome.bind_pure_eq_ok_iff.mp h
  obtain ⟨body, hSome, rfl⟩ := bodySpan_eq_ok_iff.mp hBody
  exact ⟨body, hSome, rfl, rfl⟩

/-- The edit that makes a function of a constructor is a definition. -/
theorem isDefinition_of_definedBy {i : Index} {x : Initialization} {e : Edit}
    (h : x.DefinedBy i e) : isDefinition e = true := by
  obtain ⟨body, _, _, hText⟩ := h
  rw [isDefinition, hText]
  simp only [String.append_assoc, String.toList_append]
  exact List.isPrefixOf_iff_prefix.mpr (List.prefix_append _ _)

/-- The edits that take arguments away are no definitions. -/
theorem isDefinition_of_takesAway {i : Index} {converted rewritten : List String} {e : Edit}
    (h : TakesAway i converted rewritten e) : isDefinition e = false := by
  cases h <;> rfl

/-- Among the edits of a merge, the headers of functions are those of the converted constructors. -/
theorem definitions_of_writtenBy {i : Index} {converted : List (Contract × Function)}
    {rewrites : List Rewrite} {edits : List Edit} (h : WrittenBy i converted rewrites edits)
    {calls : List Initialization} (hCalls : calls.map Initialization.source = converted) :
    List.Forall₂ (Initialization.DefinedBy i) calls (edits.filter isDefinition) := by
  obtain ⟨headers, removed, rfl, hHeaders, hRemoved⟩ := h.parts
  have hDefined : List.Forall₂ (Initialization.DefinedBy i) calls headers := by
    rw [← hCalls, List.forall₂_map_left_iff] at hHeaders
    exact hHeaders.imp fun x e he => definedBy_of_convert he
  have hIsHeader : ∀ e ∈ headers, isDefinition e = true := by
    intro e he
    obtain ⟨x, _, hx⟩ := Outcome.exists_left_of_mem hDefined he
    exact isDefinition_of_definedBy hx
  have hOthers : (removed ++ rewrites.flatMap Rewrite.edits).filter isDefinition = [] := by
    rw [List.filter_eq_nil_iff]
    intro e he
    rw [Bool.not_eq_true]
    rcases List.mem_append.mp he with he | he
    · exact isDefinition_of_takesAway ((hRemoved e).mp he)
    · obtain ⟨r, hr, he⟩ := List.mem_flatMap.mp he
      exact isDefinition_of_startsWith (h.starts r hr) e he
  rw [List.append_assoc, List.filter_append, hOthers, List.append_nil,
    List.filter_eq_self.mpr hIsHeader]
  exact hDefined

/-- Calls for constructors of contracts with different names call different functions. -/
theorem nodup_names_of_order {bases : List Contract} {calls : List Initialization}
    (hNames : (bases.map Contract.name).Nodup)
    (hOrder : calls.map Initialization.source = constructorsOf bases) :
    (calls.map Initialization.name).Nodup := by
  have hBases : calls.map (fun x => x.base.name) = constructed bases := by
    rw [constructed_eq, ← hOrder, List.map_map]
    rfl
  have hNodup : (calls.map fun x => x.base.name).Nodup := by
    rw [hBases]
    exact hNames.sublist (List.filter_sublist.map _)
  have hMap := hNodup.map initializerName_injective
  rwa [List.map_map] at hMap

theorem isSome_of_length_filterMap {α β : Type} {l : List α} {f : α → Option β}
    (h : (l.filterMap f).length = l.length) : ∀ a ∈ l, (f a).isSome = true := by
  induction l with
  | nil => simp
  | cons a rest ih =>
      cases hf : f a with
      | none =>
          rw [List.filterMap_cons_none hf, List.length_cons] at h
          have := List.length_filterMap_le f rest
          omega
      | some b =>
          rw [List.filterMap_cons_some hf, List.length_cons, List.length_cons, Nat.succ_inj] at h
          exact List.forall_mem_cons.mpr ⟨by simp [hf], ih h⟩

/-- The own routines of a contract are its ordinary functions. -/
theorem mem_ownRoutines_iff {c : Contract} {r : Routine} :
    r ∈ ownRoutines c ↔ ∃ f ∈ c.functions, f.kind = .function ∧ .ofFunction f.name c f = r := by
  simp [ownRoutines, and_assoc]

theorem kind_of_mem_ownRoutines {chain : List Contract} {r : Routine}
    (h : r ∈ chain.flatMap ownRoutines) : r.source.2.kind = .function := by
  obtain ⟨c, _, hr⟩ := List.mem_flatMap.mp h
  obtain ⟨f, _, hKind, rfl⟩ := mem_ownRoutines_iff.mp hr
  exact hKind

theorem kind_of_mem_constructorsOf {chain : List Contract} {x : Contract × Function}
    (h : x ∈ constructorsOf chain) : x.2.kind = .constructor := by
  have hFound := List.find?_some (mem_constructorsOf_iff.mp h).2
  simpa using hFound

section

variable {bases : List Contract} {main : Contract} {x : Contract × Function} {p : Routine → Bool}

/-- Of the functions that constructors become, a test is met by one only. -/
def Selects (bases : List Contract) (x : Contract × Function) (p : Routine → Bool) : Prop :=
  ∀ y ∈ constructorsOf bases, p (.ofConstructor y) = true ↔ y = x

/-- A selection for a constructor selects no converted constructor of another contract. -/
theorem filter_routinesOf_of_ne (h : Selects bases x p) {c : Contract} (hOther : c ≠ x.1) :
    (routinesOf (constructorsOf bases) c).filter p = (ownRoutines c).filter p := by
  have hNone : (((constructorsOf [c]).filter (constructorsOf bases).contains).map
      Routine.ofConstructor).filter p = [] := by
    rw [List.filter_eq_nil_iff]
    intro r hr hp
    obtain ⟨y, hy, rfl⟩ := List.mem_map.mp hr
    obtain ⟨hHere, hConverted⟩ := List.mem_filter.mp hy
    obtain rfl := (h y (List.contains_iff_mem.mp hConverted)).mp hp
    exact hOther (List.mem_singleton.mp (mem_constructorsOf_iff.mp hHere).1).symm
  rw [routinesOf, List.filter_append, hNone, List.nil_append]

/-- In the contract itself it selects the converted constructor first. -/
theorem filter_routinesOf_self (h : Selects bases x p) (hx : x ∈ constructorsOf bases) :
    (routinesOf (constructorsOf bases) x.1).filter p =
      .ofConstructor x :: (ownRoutines x.1).filter p := by
  have hSelf : (constructorsOf [x.1]).filter (constructorsOf bases).contains = [x] := by
    have hOnly : constructorsOf [x.1] = [x] := by
      simp [constructorsOf, (mem_constructorsOf_iff.mp hx).2]
    rw [hOnly, List.filter_singleton, List.contains_iff_mem.mpr hx, cond_true]
  rw [routinesOf, hSelf, List.filter_append, List.map_singleton, List.filter_singleton,
    (h x hx).mpr rfl, cond_true, List.singleton_append]

/-- The functions along a chain that meet such a test: the one that the constructor has become, and
those that contracts of the chain declare. -/
theorem filter_routinesAlong (h : Selects bases x p) (hx : x ∈ constructorsOf bases)
    (hNodup : (bases ++ [main]).Nodup) {before after : List Contract}
    (hSplit : bases ++ [main] = before ++ x.1 :: after) :
    (routinesAlong (constructorsOf bases) (bases ++ [main])).filter p =
      (before.flatMap ownRoutines).filter p ++
        .ofConstructor x :: ((x.1 :: after).flatMap ownRoutines).filter p := by
  rw [hSplit, List.nodup_append, List.nodup_cons] at hNodup
  have hOthers (part : List Contract) (hPart : ∀ c ∈ part, c ≠ x.1) :
      (part.flatMap (routinesOf (constructorsOf bases))).filter p =
        (part.flatMap ownRoutines).filter p := by
    rw [List.filter_flatMap, List.filter_flatMap]
    exact List.flatMap_congr fun c hc => filter_routinesOf_of_ne h (hPart c hc)
  have hBefore := hOthers before fun c hc => hNodup.2.2 c hc x.1 List.mem_cons_self
  have hAfter := hOthers after fun c hc hSame => hNodup.2.1.1 (hSame ▸ hc)
  rw [routinesAlong, hSplit, List.flatMap_append, List.flatMap_cons, List.filter_append,
    List.filter_append, hBefore, hAfter, filter_routinesOf_self h hx, List.flatMap_cons,
    List.filter_append, List.cons_append]

/-- A test is met by the function of the constructor alone if no contract declares one that meets it. -/
theorem filter_routinesAlong_eq_iff (h : Selects bases x p) (hx : x ∈ constructorsOf bases)
    (hNodup : (bases ++ [main]).Nodup) :
    (routinesAlong (constructorsOf bases) (bases ++ [main])).filter p = [.ofConstructor x] ↔
      ∀ c ∈ bases ++ [main], ∀ r ∈ ownRoutines c, p r = false := by
  have hMem : x.1 ∈ bases ++ [main] := List.mem_append_left _ (mem_constructorsOf_iff.mp hx).1
  obtain ⟨before, after, hSplit⟩ := List.append_of_mem hMem
  rw [filter_routinesAlong h hx hNodup hSplit]
  have hCount : ∀ {front back : List Routine} {r : Routine},
      front ++ r :: back = [r] ↔ front ++ back = [] := by
    intro front back r
    cases front <;> simp
  rw [hCount, ← List.filter_append, ← List.flatMap_append, ← hSplit, List.filter_eq_nil_iff]
  simp only [List.mem_flatMap, forall_exists_index, and_imp, Bool.not_eq_true]
  exact ⟨fun hAll c hc r hr => hAll r c hc hr, fun hAll r c hc hr => hAll c hc r hr⟩

end

section

variable {bases : List Contract} {main : Contract} {calls : List Initialization}

/-- Calls along a chain whose contracts have different names. -/
structure AreCallsAlong (bases : List Contract) (main : Contract) (calls : List Initialization) :
    Prop where
  names : ((bases ++ [main]).map Contract.name).Nodup
  order : calls.map Initialization.source = constructorsOf bases
  arity : ∀ x ∈ calls, x.arguments.length = x.ctor.parameters.length

namespace AreCallsAlong

theorem source_mem (h : AreCallsAlong bases main calls) {x : Initialization} (hx : x ∈ calls) :
    x.source ∈ constructorsOf bases :=
  h.order ▸ List.mem_map_of_mem hx

/-- A call tells by its name which constructor it is made for. -/
theorem eq_of_name (h : AreCallsAlong bases main calls) {x : Initialization} (hx : x ∈ calls)
    {y : Contract × Function} (hy : y ∈ constructorsOf bases)
    (hName : initializerName y.1.name = x.name) : y = x.source := by
  obtain ⟨hBase, hCtor⟩ := mem_constructorsOf_iff.mp (h.source_mem hx)
  obtain ⟨hOther, hOtherCtor⟩ := mem_constructorsOf_iff.mp hy
  have hSame : y.1 = x.source.1 := List.inj_on_of_nodup_map h.names (List.mem_append_left _ hOther)
    (List.mem_append_left _ hBase) (initializerName_injective hName)
  rw [hSame, hCtor, Option.some.injEq] at hOtherCtor
  exact Prod.ext hSame hOtherCtor.symm

theorem selects_name (h : AreCallsAlong bases main calls) {x : Initialization} (hx : x ∈ calls) :
    Selects bases x.source fun r => r.name == x.name := by
  intro y hy
  rw [beq_iff_eq]
  refine ⟨fun hName => h.eq_of_name hx hy hName, ?_⟩
  rintro rfl
  rfl

/-- The name and the number of arguments of a call together select its constructor. -/
theorem selects_isFor (h : AreCallsAlong bases main calls) {x : Initialization} (hx : x ∈ calls) :
    Selects bases x.source (Routine.isFor x) := by
  intro y hy
  rw [Routine.isFor, Bool.and_eq_true, h.selects_name hx y hy, and_iff_left_iff_imp, beq_iff_eq]
  rintro rfl
  rw [h.arity x hx]
  exact List.length_map _

/-- The function of a call is the only one of its name exactly if no contract of the chain declares
one. -/
theorem defined_once_iff (h : AreCallsAlong bases main calls) {x : Initialization} (hx : x ∈ calls) :
    (routinesAlong (constructorsOf bases) (bases ++ [main])).filter (fun r => r.name == x.name) =
        [.ofConstructor x.source] ↔
      ∀ c ∈ bases ++ [main], ∀ f ∈ c.functions, f.kind = .function → f.name ≠ x.name := by
  rw [filter_routinesAlong_eq_iff (h.selects_name hx) (h.source_mem hx) h.names.of_map]
  refine forall_congr' fun c => forall_congr' fun _ => ?_
  simp only [mem_ownRoutines_iff, forall_exists_index, and_imp, beq_eq_false_iff_ne]
  refine ⟨fun hAll f hf hKind => hAll _ f hf hKind rfl, ?_⟩
  rintro hAll _ f hf hKind rfl
  exact hAll f hf hKind

/-- The function of a call is the only one that can be meant exactly if no contract of the chain
declares one with as many parameters under its name. -/
theorem only_candidate_iff (h : AreCallsAlong bases main calls) {x : Initialization} (hx : x ∈ calls) :
    (routinesAlong (constructorsOf bases) (bases ++ [main])).filter (Routine.isFor x) =
        [.ofConstructor x.source] ↔
      IsFree (bases ++ [main]) x.name x.ctor.parameters.length := by
  rw [filter_routinesAlong_eq_iff (h.selects_isFor hx) (h.source_mem hx) h.names.of_map]
  refine forall_congr' fun c => forall_congr' fun _ => ?_
  simp only [mem_ownRoutines_iff, forall_exists_index, and_imp, Routine.isFor, Bool.and_eq_false_iff,
    beq_eq_false_iff_ne, h.arity x hx]
  constructor
  · intro hAll f hf hKind hName hCount
    rcases hAll _ f hf hKind rfl with hOther | hOther
    · exact hOther hName
    · exact hOther (by simpa [Routine.ofFunction] using hCount)
  · rintro hAll _ f hf hKind rfl
    by_cases hName : f.name = x.name
    · exact .inr (by simpa [Routine.ofFunction] using hAll f hf hKind hName)
    · exact .inl hName

/-- If nothing else can be meant by a call, it runs the body of its constructor. -/
theorem bodiesCalled_eq (h : AreCallsAlong bases main calls) (o : Overloading) {hidden : List String}
    (hFree : ∀ x ∈ calls, x.name ∉ hidden ∧
      IsFree (bases ++ [main]) x.name x.ctor.parameters.length) :
    bodiesCalled o hidden (routinesAlong (constructorsOf bases) (bases ++ [main])) calls =
      constructorsOf bases := by
  have hEach : ∀ x ∈ calls, (if hidden.contains x.name then none
      else (o.pick x ((routinesAlong (constructorsOf bases) (bases ++ [main])).filter
        (Routine.isFor x))).map Routine.source) = some x.source := by
    intro x hx
    obtain ⟨hVisible, hOnly⟩ := hFree x hx
    rw [if_neg (by simpa using hVisible), (h.only_candidate_iff hx).mpr hOnly, o.single]
    rfl
  calc
    _ = calls.filterMap (some ∘ Initialization.source) := List.filterMap_congr hEach
    _ = calls.map Initialization.source := congrFun List.filterMap_eq_map calls
    _ = constructorsOf bases := h.order

/-- If the bodies of the constructors run, every call finds its constructor. -/
theorem pick_of_bodiesCalled (h : AreCallsAlong bases main calls) {o : Overloading}
    {hidden : List String}
    (hSame : bodiesCalled o hidden (routinesAlong (constructorsOf bases) (bases ++ [main])) calls =
      constructorsOf bases) {x : Initialization} (hx : x ∈ calls) :
    x.name ∉ hidden ∧ o.pick x ((routinesAlong (constructorsOf bases) (bases ++ [main])).filter
      (Routine.isFor x)) = some (.ofConstructor x.source) := by
  have hLength : (bodiesCalled o hidden (routinesAlong (constructorsOf bases) (bases ++ [main]))
      calls).length = calls.length := by
    rw [hSame, ← h.order, List.length_map]
  obtain ⟨body, hBody⟩ := Option.isSome_iff_exists.mp (isSome_of_length_filterMap hLength x hx)
  have hRuns : body ∈ bodiesCalled o hidden (routinesAlong (constructorsOf bases) (bases ++ [main]))
      calls := List.mem_filterMap.mpr ⟨x, hx, hBody⟩
  have hConstructor : body.2.kind = .constructor := kind_of_mem_constructorsOf (hSame ▸ hRuns)
  rw [Option.ite_none_left_eq_some, Option.map_eq_some_iff] at hBody
  obtain ⟨hVisible, r, hPick, rfl⟩ := hBody
  refine ⟨by simpa using hVisible, hPick.trans ?_⟩
  -- What was found has the body of a constructor, so no contract declares it.
  obtain ⟨before, after, hSplit⟩ := List.append_of_mem
    (List.mem_append_left [main] (mem_constructorsOf_iff.mp (h.source_mem hx)).1)
  have hMem := o.mem _ _ _ hPick
  rw [filter_routinesAlong (h.selects_isFor hx) (h.source_mem hx) h.names.of_map hSplit] at hMem
  rcases List.mem_append.mp hMem with hOwn | hMem
  · rw [kind_of_mem_ownRoutines (List.mem_filter.mp hOwn).1] at hConstructor
    cases hConstructor
  · rcases List.mem_cons.mp hMem with rfl | hOwn
    · rfl
    · rw [kind_of_mem_ownRoutines (List.mem_filter.mp hOwn).1] at hConstructor
      cases hConstructor

/-- All calls run the constructors that they are made for, whatever rule chooses between overloads,
exactly when no name is hidden and each function is free. -/
theorem bodiesCalled_eq_iff (h : AreCallsAlong bases main calls) {hidden : List String} :
    (∀ o : Overloading, bodiesCalled o hidden
        (routinesAlong (constructorsOf bases) (bases ++ [main])) calls = constructorsOf bases) ↔
      ∀ x ∈ calls, x.name ∉ hidden ∧ IsFree (bases ++ [main]) x.name x.ctor.parameters.length := by
  refine ⟨fun hAll x hx => ?_, fun hFree o => h.bodiesCalled_eq o hFree⟩
  obtain ⟨hVisible, hPick⟩ := h.pick_of_bodiesCalled (hAll .strict) hx
  exact ⟨hVisible, (h.only_candidate_iff hx).mp (only?_eq_some_iff.mp hPick)⟩

/-- A function that overrides that of a constructor keeps a call from finding it. -/
theorem bodiesCalled_ne (h : AreCallsAlong bases main calls) (o : Overloading) {hidden : List String}
    {x : Initialization} (hx : x ∈ calls)
    (hLost : x.name ∈ hidden ∨ IsOverridden (bases ++ [main]) x.source) :
    bodiesCalled o hidden (routinesAlong (constructorsOf bases) (bases ++ [main])) calls ≠
      constructorsOf bases := by
  intro hSame
  obtain ⟨hVisible, hPick⟩ := h.pick_of_bodiesCalled hSame hx
  rcases hLost with hHidden | ⟨before, after, hSplit, c, hc, f, hf, hKind, hName, hTypes⟩
  · exact hVisible hHidden
  rw [filter_routinesAlong (h.selects_isFor hx) (h.source_mem hx) h.names.of_map hSplit] at hPick
  have hIsFor : Routine.isFor x (.ofFunction f.name c f) = true := by
    have hCount := congrArg List.length hTypes
    rw [List.length_map, List.length_map] at hCount
    rw [Routine.isFor, Bool.and_eq_true, beq_iff_eq, beq_iff_eq, h.arity x hx]
    exact ⟨hName, (List.length_map _).trans hCount⟩
  have hMem : Routine.ofFunction f.name c f ∈
      ((x.source.1 :: after).flatMap ownRoutines).filter (Routine.isFor x) :=
    List.mem_filter.mpr ⟨List.mem_flatMap.mpr ⟨c, hc, mem_ownRoutines_iff.mpr ⟨f, hf, hKind, rfl⟩⟩,
      hIsFor⟩
  obtain ⟨between, rest, hRest⟩ := List.append_of_mem hMem
  rw [hRest, ← List.cons_append, ← List.append_assoc] at hPick
  exact o.latest x _ _ _ _ _ hTypes.symm hPick

end AreCallsAlong

end

/-- What runs in the constructor of the main contract is compared before its own body. -/
theorem constructionAfter_eq_iff {o : Overloading} {exposed : List Exposed} {main : Contract}
    {bases : List Contract} {calls : List Initialization} :
    constructionAfter o exposed main bases calls = constructorsOf (bases ++ [main]) ↔
      bodiesCalled o (otherNames exposed main (bases ++ [main]))
        (routinesAlong (constructorsOf bases) (bases ++ [main])) calls = constructorsOf bases := by
  rw [constructionAfter, constructorsOf_append, List.append_left_inj]

/-- Two contracts share a base. -/
def diamond : Index :=
  indexOf ("contract A \x7b constructor(uint x) \x7b\x7d \x7d contract B is A \x7b constructor() \x7b\x7d \x7d " ++
    "contract C is A \x7b\x7d contract D is B, C \x7b constructor(uint y) A(y) \x7b\x7d \x7d")

/-- A contract declares a function with the name that the constructor of its base gets. -/
def homonymous : Index :=
  indexOf ("contract A \x7b uint v; constructor(uint x) \x7b v = x; \x7d \x7d " ++
    "contract B is A(1) \x7b function __constructor_A(uint x) internal \x7b \x7d \x7d")

/-- What is reported of a merge for its main contract. -/
def mainReport (i : Index) (name : String) : Except Error (Option (Bool × List String)) :=
  (merge i name).map fun m => m.2.head?.map fun r => (r.isNeeded, r.initializers)

/-- A report on the main contract comes from a merge that succeeded. -/
theorem exists_of_mainReport {i : Index} {name : String} {initializers : List String}
    (h : mainReport i name = .ok (some (true, initializers))) : ∃ edits report others,
      merge i name = .ok (edits, report :: others) ∧ report.isNeeded = true ∧
        report.initializers = initializers := by
  obtain ⟨⟨edits, reports⟩, hOk, hReports⟩ := Outcome.map_eq_ok_iff.mp h
  obtain ⟨report, hHead, hReport⟩ := Option.map_eq_some_iff.mp hReports
  obtain ⟨others, rfl⟩ := List.head?_eq_some_iff.mp hHead
  exact ⟨edits, report, others, hOk, Prod.mk.inj hReport⟩

theorem merge_diamond : ∃ a b c d, diamond.contract? "D" = some d ∧
    diamond.linearize d.name = .ok ([a, b, c] ++ [d]) ∧
    openParameters ([a, b, c] ++ [d]) (fun _ => true) = [] ∧
    (∀ y ∈ constructorsOf [a, b, c],
      initializerName y.1.name ∉ otherNames [] d ([a, b, c] ++ [d]) ∧
      IsFree ([a, b, c] ++ [d]) (initializerName y.1.name) y.2.parameters.length) ∧
    mainReport diamond "D" = .ok (some (true, ["__constructor_A(y)", "__constructor_B()"])) := by
  refine ⟨(diamond.contract? "A").getD default, (diamond.contract? "B").getD default,
    (diamond.contract? "C").getD default, (diamond.contract? "D").getD default, ?_⟩
  decide +kernel

theorem merge_homonymous : ∃ a b f g, homonymous.contract? "B" = some b ∧
    homonymous.linearize b.name = .ok ([a] ++ [b]) ∧ a.constructor? = some f ∧
    g ∈ b.functions ∧ g.kind = .function ∧ g.name = initializerName a.name ∧
    (g.parameters.map fun v => v.type.text) = f.parameters.map (fun v => v.type.text) ∧
    mainReport homonymous "B" = .ok (some (true, ["__constructor_A(1)"])) := by
  refine ⟨(homonymous.contract? "A").getD default, (homonymous.contract? "B").getD default,
    (((homonymous.contract? "A").getD default).constructor?).getD default,
    (((homonymous.contract? "B").getD default).functions.head?).getD default, ?_⟩
  decide +kernel

end SolNorm.Construction
