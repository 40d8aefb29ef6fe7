import SolNorm.Analysis.Storage
import SolNorm.Proofs.Ancestry
import SolNorm.Proofs.Outline.Spans

/-!
Which functions are listed for a variable of a contract. What is listed is right: the function mentions
the name, declares nothing of that name, and the variable is the most derived one that its contract
sees. But a name that the function declares anywhere is never looked for in the contracts, and where
the declaration stands is not asked. So a use that comes before a local of the same name is missed.
-/

namespace SolNorm

open Outline

namespace Outline

/-- The contract declares a variable of the name. -/
def Contract.Declares (c : Contract) (name : String) : Prop :=
  ∃ v ∈ c.stateVariables, v.name = some name

namespace Function

/-- The name stands in the body. -/
def Mentions (f : Function) (x : Ident) : Prop := ∃ b ∈ f.body, x ∈ b.idents

/-- A parameter or a result has the name. -/
def Binds (f : Function) (name : String) : Prop :=
  ∃ v ∈ f.parameters ++ f.returns, v.name = some name

/-- The locals of a name. -/
def localsNamed (f : Function) (name : String) : List Variable :=
  ((f.body.map Body.locals).getD []).filter fun v => v.name == some name

/-- A function declares a name among its parameters and results or in its body. -/
theorem declaration?_isSome_iff {f : Function} {name : String} :
    (f.declaration? name).isSome ↔ f.Binds name ∨ f.localsNamed name ≠ [] := by
  rw [declaration?, List.find?_isSome]
  simp only [Binds, localsNamed, List.mem_append (t := (f.body.map Body.locals).getD []),
    beq_iff_eq, ne_eq, List.filter_eq_nil_iff, not_forall, not_not, or_and_right, exists_or,
    exists_prop]

end Function

end Outline

namespace StorageMap

section Owner

variable {chain : List Contract} {name : String} {owner : Contract}

/-- Of the contracts of a chain, which goes from the bases to the derived ones, the owner is the last
one that declares a variable of the name. -/
def IsOwner (chain : List Contract) (name : String) (owner : Contract) : Prop :=
  ∃ bases derived, chain = bases ++ owner :: derived ∧ owner.Declares name ∧
    ∀ d ∈ derived, ¬ d.Declares name

/-- If a contract of a chain declares a variable, then one of them is the last to do so. -/
theorem exists_isOwner (h : ∃ d ∈ chain, d.Declares name) : ∃ owner, IsOwner chain name owner := by
  induction chain with
  | nil => simp at h
  | cons first rest ih =>
      by_cases hRest : ∃ d ∈ rest, d.Declares name
      · obtain ⟨owner, bases, derived, rfl, hOwner, hNone⟩ := ih hRest
        exact ⟨owner, first :: bases, derived, rfl, hOwner, hNone⟩
      · obtain ⟨d, hd, hDeclares⟩ := h
        rcases List.mem_cons.mp hd with rfl | hd
        · exact ⟨d, [], rest, rfl, hDeclares, fun e he hAlso => hRest ⟨e, he, hAlso⟩⟩
        · exact absurd ⟨d, hd, hDeclares⟩ hRest

theorem variableNamed?_eq_none_iff {c : Contract} :
    c.variableNamed? name = none ↔ ¬ c.Declares name := by
  simp [Contract.variableNamed?, Contract.Declares]

/-- The variable that a contract sees is the one of the owner. -/
theorem exists_stateVariable?_iff {i : Index} {c : Contract} :
    (∃ v, i.stateVariable? c name = some (owner, v)) ↔
      ∃ chain, i.linearize c.name = .ok chain ∧ IsOwner chain name owner := by
  unfold Index.stateVariable?
  cases i.linearize c.name with
  | error e => simp
  | ok chain =>
      -- The search starts at the derived end, so the contracts that it passes are those behind the owner.
      simp only [List.findSome?_eq_some_iff, Option.map_eq_some_iff, Option.map_eq_none_iff,
        variableNamed?_eq_none_iff, Except.ok.injEq, exists_eq_left']
      constructor
      · rintro ⟨v, derived, d, bases, hChain, ⟨_, hFound, hPair⟩, hNone⟩
        cases hPair
        refine ⟨bases.reverse, derived.reverse, ?_, ?_, by simpa using hNone⟩
        · rw [← List.reverse_reverse chain, hChain]
          simp
        · rw [← not_not (a := owner.Declares name), ← variableNamed?_eq_none_iff, hFound]
          simp
      · rintro ⟨bases, derived, rfl, hDeclares, hNone⟩
        cases hFound : owner.variableNamed? name with
        | none => exact absurd hDeclares (variableNamed?_eq_none_iff.mp hFound)
        | some v =>
            exact ⟨v, derived.reverse, owner, bases.reverse, by simp, ⟨v, hFound, rfl⟩,
              by simpa using hNone⟩

end Owner

/-- A function is listed for a variable. -/
def Listed (accesses : List (String × List String)) (id name : String) : Prop :=
  ∃ functions, (id, functions) ∈ accesses ∧ name ∈ functions

theorem mem_insertName_iff {name other : String} {names : List String} :
    other ∈ insertName name names ↔ other = name ∨ other ∈ names := by
  induction names with
  | nil => simp [insertName]
  | cons first rest ih =>
      unfold insertName
      split
      · rename_i hSame
        rw [eq_of_beq hSame]
        simp
      · split
        · simp
        · rw [List.mem_cons, ih, List.mem_cons]
          tauto

/-- A use is listed in the first entry or in the rest. -/
theorem listed_cons_iff {key id name : String} {functions : List String}
    {accesses : List (String × List String)} :
    Listed ((key, functions) :: accesses) id name ↔
      (id = key ∧ name ∈ functions) ∨ Listed accesses id name := by
  simp [Listed, or_and_right, exists_or, and_assoc]

/-- The step: one more use is listed. -/
theorem listed_record_iff {id name id' name' : String} {accesses : List (String × List String)} :
    Listed (record id name accesses) id' name' ↔
      (id' = id ∧ name' = name) ∨ Listed accesses id' name' := by
  induction accesses with
  | nil => simp [record, Listed]
  | cons first rest ih =>
      obtain ⟨key, functions⟩ := first
      unfold record
      split
      · rename_i hSame
        rw [eq_of_beq hSame, listed_cons_iff, listed_cons_iff, mem_insertName_iff]
        tauto
      · split
        · rw [listed_cons_iff, List.mem_singleton]
        · rw [listed_cons_iff, ih, listed_cons_iff]
          exact or_left_comm

/-- The run: exactly the uses that are recorded are listed. -/
theorem listed_foldl_iff {uses : List (String × String)} {accesses : List (String × List String)}
    {id name : String} :
    Listed (uses.foldl (fun accesses (id, function) => record id function accesses) accesses)
      id name ↔ (id, name) ∈ uses ∨ Listed accesses id name := by
  induction uses generalizing accesses with
  | nil => simp
  | cons use rest ih =>
      rw [List.foldl_cons, ih, listed_record_iff, List.mem_cons, Prod.ext_iff]
      tauto

/-- A function is listed for a variable exactly when a name in its body stands for the variable. -/
theorem listed_ofIndex_iff {i : Index} {id name : String} :
    Listed (ofIndex i).accesses id name ↔ ∃ c f, (c, f) ∈ i.unit.definitions ∧
      name = s!"{c.name}.{f.signature}" ∧
      ∃ b ∈ f.body, ∃ x ∈ b.idents, usedVariable? i c f x.name = some id := by
  have hUses {c : Contract} {f : Function} : (id, name) ∈ usesIn i c f ↔
      name = s!"{c.name}.{f.signature}" ∧
        ∃ b ∈ f.body, ∃ x ∈ b.idents, usedVariable? i c f x.name = some id := by
    unfold usesIn
    cases f.body <;> simp [eq_comm, and_comm]
  have hNone : ¬ Listed [] id name := by simp [Listed]
  unfold ofIndex
  rw [listed_foldl_iff, or_iff_left hNone]
  simp only [List.mem_flatMap, hUses, Outline.mem_definitions_iff]
  constructor
  · rintro ⟨c, hc, f, hf, hUse⟩
    exact ⟨c, f, ⟨hc, hf⟩, hUse⟩
  · rintro ⟨c, f, ⟨hc, hf⟩, hUse⟩
    exact ⟨c, hc, f, hf, hUse⟩

/-- To record a use adds at most the variable that is used. -/
theorem mem_keys_record_iff {id name key : String} {accesses : List (String × List String)} :
    key ∈ (record id name accesses).map Prod.fst ↔ key = id ∨ key ∈ accesses.map Prod.fst := by
  induction accesses with
  | nil => simp [record]
  | cons first rest ih =>
      obtain ⟨head, functions⟩ := first
      unfold record
      split
      · rename_i hSame
        rw [eq_of_beq hSame]
        simp
      · split
        · simp
        · rw [List.map_cons, List.mem_cons, ih, List.map_cons, List.mem_cons]
          exact or_left_comm

/-- The step: the variables stay in their order. -/
theorem ascending_record {id name : String} {accesses : List (String × List String)}
    (h : (accesses.map Prod.fst).Pairwise (· < ·)) :
    ((record id name accesses).map Prod.fst).Pairwise (· < ·) := by
  induction accesses with
  | nil => simp [record]
  | cons first rest ih =>
      obtain ⟨key, functions⟩ := first
      obtain ⟨hFirst, hRest⟩ := List.pairwise_cons.mp h
      unfold record
      split
      · exact h
      · rename_i hOther
        split
        · rename_i hBefore
          refine List.pairwise_cons.mpr ⟨fun other hMem => ?_, h⟩
          rcases List.mem_cons.mp hMem with rfl | hMem
          · exact hBefore
          · exact String.lt_trans hBefore (hFirst other hMem)
        · rename_i hNotBefore
          refine List.pairwise_cons.mpr ⟨fun other hMem => ?_, ih hRest⟩
          rcases mem_keys_record_iff.mp hMem with rfl | hMem
          · exact lt_of_le_of_ne (String.not_lt.mp hNotBefore) fun hSame =>
              hOther (beq_iff_eq.mpr hSame.symm)
          · exact hFirst other hMem

/-- The run: no variable comes twice among those that are used. -/
theorem ascending_foldl {uses : List (String × String)} {accesses : List (String × List String)}
    (h : (accesses.map Prod.fst).Pairwise (· < ·)) :
    ((uses.foldl (fun accesses (id, function) => record id function accesses) accesses).map
      Prod.fst).Pairwise (· < ·) := by
  induction uses generalizing accesses with
  | nil => exact h
  | cons use rest ih => exact ih (ascending_record h)

/-- The functions that are looked up for a variable are those that are listed for it. -/
theorem mem_functionsUsing_iff {i : Index} {id name : String} :
    name ∈ (ofIndex i).functionsUsing id ↔ Listed (ofIndex i).accesses id name := by
  have hKeys : ((ofIndex i).accesses.map Prod.fst).Pairwise (· < ·) := ascending_foldl .nil
  unfold functionsUsing
  generalize (ofIndex i).accesses = accesses at hKeys
  induction accesses with
  | nil => simp [Listed]
  | cons first rest ih =>
      obtain ⟨key, functions⟩ := first
      obtain ⟨hFirst, hRest⟩ := List.pairwise_cons.mp hKeys
      rw [listed_cons_iff, List.lookup_cons]
      rcases eq_or_ne id key with rfl | hOther
      · have hLater : ¬ Listed rest id name := fun ⟨_, hMem, _⟩ =>
          String.lt_irrefl id (hFirst id (List.mem_map_of_mem hMem))
        simp [hLater]
      · rw [beq_false_of_ne hOther]
        simp [hOther, ih hRest]

/-- A function of a contract is taken to use a variable: it mentions the name and declares nothing of
that name, and of the contracts that its contract inherits from the owner is the last to declare it. -/
structure Uses (i : Index) (c : Contract) (f : Function) (owner : Contract) (name : String) :
    Prop where
  mentioned : ∃ x, f.Mentions x ∧ x.name = name
  unbound : ¬ f.Binds name
  noLocal : f.localsNamed name = []
  owned : ∃ chain, i.linearize c.name = .ok chain ∧ IsOwner chain name owner

/-- A name stands for a variable if neither a parameter nor a local variable has it, and then for
that of the last contract which declares one. -/
theorem usedVariable?_eq_some_iff {i : Index} {c : Contract} {f : Function} {name id : String} :
    usedVariable? i c f name = some id ↔ ¬ f.Binds name ∧ f.localsNamed name = [] ∧
      ∃ owner : Contract, (∃ chain, i.linearize c.name = .ok chain ∧ IsOwner chain name owner) ∧
        id = s!"{owner.name}.{name}" := by
  unfold usedVariable?
  simp only [Option.ite_none_left_eq_some, Function.declaration?_isSome_iff, not_or, not_not, ne_eq,
    and_assoc, Option.map_eq_some_iff, Prod.exists, ← exists_stateVariable?_iff, eq_comm (a := id)]
  simp only [exists_and_right]

/-- A function is found under a variable exactly when it is taken to use it. -/
theorem mem_functionsUsing_iff_uses {i : Index} {id function : String} :
    function ∈ (ofIndex i).functionsUsing id ↔ ∃ c f owner name, (c, f) ∈ i.unit.definitions ∧
      Uses i c f owner name ∧ id = s!"{owner.name}.{name}" ∧
      function = s!"{c.name}.{f.signature}" := by
  rw [mem_functionsUsing_iff, listed_ofIndex_iff]
  simp only [usedVariable?_eq_some_iff]
  constructor
  · rintro ⟨c, f, hMem, hFunction, b, hBody, x, hx, hUnbound, hLocal, owner, hOwned, hId⟩
    exact ⟨c, f, owner, x.name, hMem, ⟨⟨x, ⟨b, hBody, hx⟩, rfl⟩, hUnbound, hLocal, hOwned⟩, hId,
      hFunction⟩
  · rintro ⟨c, f, owner, name, hMem, ⟨⟨x, ⟨b, hBody, hx⟩, rfl⟩, hUnbound, hLocal, hOwned⟩, hId,
      hFunction⟩
    exact ⟨c, f, hMem, hFunction, b, hBody, x, hx, hUnbound, hLocal, owner, hOwned, hId⟩

/-- What is used is recorded. -/
theorem Uses.recorded {i : Index} {c owner : Contract} {f : Function} {name : String}
    (h : Uses i c f owner name) :
    ∃ v ∈ (ofIndex i).stateVariables, v.contract = owner.name ∧ v.name = name := by
  obtain ⟨chain, hChain, bases, derived, rfl, ⟨v, hv, hName⟩, _⟩ := h.owned
  have hOwner : owner ∈ i.contracts :=
    Index.mem_contracts_of_contract? (Index.contract?_of_mem_linearize hChain (by simp))
  refine ⟨⟨owner.name, name, v.type.text, v.isConstant, v.isImmutable⟩, ?_, rfl, rfl⟩
  refine List.mem_flatMap.mpr ⟨owner, hOwner, List.mem_filterMap.mpr ⟨v, hv, ?_⟩⟩
  simp [hName]

/-- What is listed for a variable, for every source. A function that mentions a name of a variable, and
has no parameter or result of that name, is listed for the owner of the variable exactly when none of its
locals has the name, wherever in the body they stand; otherwise at most another definition or another
name is listed with the same texts. And all that is listed is a recorded variable of the owner, mentioned
in a function that has no parameter, result or local of its name. -/
theorem listed_unless_declared (i : Index) :
    (∀ c f x chain, (c, f) ∈ i.unit.definitions → f.Mentions x → ¬ f.Binds x.name →
      i.linearize c.name = .ok chain → (∃ d ∈ chain, d.Declares x.name) →
      ∃ owner, IsOwner chain x.name owner ∧
        (s!"{c.name}.{f.signature}" ∈ (ofIndex i).functionsUsing s!"{owner.name}.{x.name}" ↔
          f.localsNamed x.name = [] ∨
          ∃ e g other word, (e, g) ∈ i.unit.definitions ∧ Uses i e g other word ∧
            (g, word) ≠ (f, x.name) ∧
            s!"{owner.name}.{x.name}" = s!"{other.name}.{word}" ∧
            s!"{c.name}.{f.signature}" = s!"{e.name}.{g.signature}")) ∧
    (∀ id function, function ∈ (ofIndex i).functionsUsing id →
      ∃ c f owner name, (c, f) ∈ i.unit.definitions ∧ Uses i c f owner name ∧
        id = s!"{owner.name}.{name}" ∧ function = s!"{c.name}.{f.signature}" ∧
        ∃ v ∈ (ofIndex i).stateVariables, v.contract = owner.name ∧ v.name = name) := by
  constructor
  · intro c f x chain hMem hMentions hUnbound hChain hDeclared
    obtain ⟨owner, hOwner⟩ := exists_isOwner hDeclared
    refine ⟨owner, hOwner, ?_⟩
    rw [mem_functionsUsing_iff_uses]
    constructor
    · rintro ⟨e, g, other, word, hOther, hUses, hId, hFunction⟩
      by_cases hLocal : f.localsNamed x.name = []
      · exact .inl hLocal
      · refine .inr ⟨e, g, other, word, hOther, hUses, fun hSame => hLocal ?_, hId, hFunction⟩
        obtain ⟨rfl, rfl⟩ := Prod.mk.inj hSame
        exact hUses.noLocal
    · rintro (hLocal | ⟨e, g, other, word, hOther, hUses, _, hId, hFunction⟩)
      · have hUses : Uses i c f owner x.name :=
          ⟨⟨x, hMentions, rfl⟩, hUnbound, hLocal, chain, hChain, hOwner⟩
        exact ⟨c, f, owner, x.name, hMem, hUses, rfl, rfl⟩
      · exact ⟨e, g, other, word, hOther, hUses, hId, hFunction⟩
  · intro id function hListed
    obtain ⟨c, f, owner, name, hMem, hUses, hId, hFunction⟩ :=
      mem_functionsUsing_iff_uses.mp hListed
    exact ⟨c, f, owner, name, hMem, hUses, hId, hFunction, hUses.recorded⟩

/-- A variable with the name `x` at an offset. -/
def variableAt (start : Nat) : Variable :=
  { (default : Variable) with name := some "x", span := ⟨start, start + 6⟩ }

/-- A function that mentions `x` at the offset 100. -/
def userOf (name : String) (locals : List Variable) : Function :=
  { (default : Function) with
    kind := .function, name
    body := some { (default : Body) with locals, idents := [⟨"x", ⟨100, 101⟩⟩] } }

/-- A contract whose functions use a variable of its bases. The local of the first comes after the
use. -/
def heir : Contract :=
  { (default : Contract) with
    name := "C", bases := [{ (default : Invocation) with name := "B" }]
    functions := [userOf "f" [variableAt 110], userOf "g" []] }

/-- The variable is declared by the base of the heir, and again by the base of that. -/
def redeclared : Index :=
  let base (name : String) (bases : List String) (start : Nat) : Contract :=
    { (default : Contract) with
      name, stateVariables := [variableAt start]
      bases := bases.map fun base => { (default : Invocation) with name := base } }
  { (default : Index) with
    unit := ⟨[.contract (base "A" [] 10), .contract (base "B" ["A"] 40), .contract heir], default⟩ }

/-- Both functions of the heir use the variable of the owner, but only the one without a local is
listed. -/
theorem redeclared_listed :
    ∃ chain, redeclared.linearize heir.name = .ok chain ∧
      (∀ l ∈ (userOf "f" [variableAt 110]).localsNamed "x", 101 ≤ l.span.start) ∧
      (∃ owner, IsOwner chain "x" owner ∧
        "C.f()" ∉ (ofIndex redeclared).functionsUsing (owner.name ++ "." ++ "x")) ∧
      ∃ owner, IsOwner chain "x" owner ∧
        "C.g()" ∈ (ofIndex redeclared).functionsUsing (owner.name ++ "." ++ "x") := by
  have hChain : redeclared.linearize heir.name = .ok redeclared.contracts := by cbv
  have hDeclared : ∃ d ∈ redeclared.contracts, d.Declares "x" :=
    ⟨_, List.mem_cons_self, variableAt 10, List.mem_cons_self, rfl⟩
  have hUnbound (name : String) (locals : List Variable) : ¬ (userOf name locals).Binds "x" := by
    rintro ⟨v, hv, _⟩
    cases hv
  have hMentions (name : String) (locals : List Variable) :
      (userOf name locals).Mentions ⟨"x", ⟨100, 101⟩⟩ := ⟨_, rfl, List.mem_cons_self⟩
  have hListed := (listed_unless_declared redeclared).1 heir
  refine ⟨_, hChain, by decide, ?_, ?_⟩
  · obtain ⟨owner, hOwner, _⟩ := hListed _ _ _ (by decide) (hMentions "f" [variableAt 110])
      (hUnbound _ _) hChain hDeclared
    refine ⟨owner, hOwner, fun hMem => ?_⟩
    have hAccesses : (ofIndex redeclared).accesses = [("B.x", ["C.g()"])] := by cbv
    obtain ⟨functions, hEntry, hFunction⟩ := mem_functionsUsing_iff.mp hMem
    rw [hAccesses, List.mem_singleton] at hEntry
    obtain ⟨_, rfl⟩ := Prod.mk.inj hEntry
    revert hFunction
    decide
  · obtain ⟨owner, hOwner, hIff⟩ := hListed _ _ _ (by decide) (hMentions "g" []) (hUnbound _ _)
      hChain hDeclared
    exact ⟨owner, hOwner, hIff.mpr (.inl rfl)⟩

end StorageMap

end SolNorm
