import SolNorm.Proofs.Selector.Places
import SolNorm.Proofs.Slips

/-!
How telling functions apart can fail. Contracts without an order of their ancestors are found out
first. After that only the search for a new name is left, and it is given up only when more than
`2 ^ 31` candidates that are not taken have led to selectors of the few functions that a contract
has.
-/

namespace SolNorm

open Outline

namespace Collision

open Outcome

/-- The names under which a family is known: its own, and the new one if there is one. -/
def namesOf (r : Renames) (f : Family) : List String := f.name :: (inheritedName? r f).toList

/-- A family along a chain has the selector under one of its names. -/
def IsHeld (hash : String → Selector) (i : Index) (chain : List Contract) (r : Renames)
    (selector : Selector) : Prop :=
  ∃ g ∈ familiesOf chain, ∃ name ∈ namesOf r g, outsideSelector hash i name g.types = selector

/-- No new name is left for a family. Some names are taken, and `2 ^ 31` more candidates than that
are taken or lead to selectors that families along the chain have, each under two names at most. -/
def Exhausted (hash : String → Selector) (i : Index) (chain : List Contract) (f : Family) : Prop :=
  ∃ (names : List String) (r : Renames), ∀ n < 2147483648 + names.length,
    Renaming.candidate (Renaming.extend f.name f.types) n ∈ names ∨
    IsHeld hash i chain r
      (outsideSelector hash i (Renaming.candidate (Renaming.extend f.name f.types) n) f.types)

/-- The functions that are seen along a chain cannot be told apart for want of a new name. -/
def Stuck (hash : String → Selector) (i : Index) (chain : List Contract) (e : Error) : Prop :=
  ∃ f ∈ familiesOf chain, e = .noNewName f.name ∧ Exhausted hash i chain f

section

variable {hash : String → Selector} {i : Index} {chain : List Contract}

theorem inheritedName?_renameFamily {r r' : Renames} {name : String} {f : Family}
    (h : renameFamily r name f = .ok r') : inheritedName? r' f = some name := by
  have hFirst : r'.find? f.first.key = some name := by
    rw [find?_of_renameFamily h, if_pos]
    exact List.mem_map_of_mem List.mem_cons_self
  rw [inheritedName?, Family.definitions, List.findSome?_cons, hFirst]

/-- To rename a family does not touch the others. -/
theorem inheritedName?_renameFamily_of_ne {r r' : Renames} {name : String} {f g : Family}
    (hf : f ∈ familiesOf chain) (hg : g ∈ familiesOf chain) (hNe : g ≠ f)
    (h : renameFamily r name f = .ok r') : inheritedName? r' g = inheritedName? r g := by
  have hSame : ∀ d ∈ g.definitions, r'.find? d.key = r.find? d.key :=
    fun d hd => find?_renameFamily_of_ne hf hg hNe hd h
  unfold inheritedName?
  generalize g.definitions = definitions at hSame
  induction definitions with
  | nil => rfl
  | cons d rest ih =>
      obtain ⟨hHere, hRest⟩ := List.forall_mem_cons.mp hSame
      rw [List.findSome?_cons, List.findSome?_cons, hHere, ih hRest]

/-- All selectors that are taken belong to families along the chain. -/
def Held (hash : String → Selector) (i : Index) (chain : List Contract) (s : State) : Prop :=
  ∀ selector ∈ s.selectors, IsHeld hash i chain s.renames selector

theorem IsHeld.mono {r r' : Renames} {selector : Selector} (h : IsHeld hash i chain r selector)
    (hNames : ∀ g ∈ familiesOf chain, ∀ name, inheritedName? r g = some name →
      inheritedName? r' g = some name) :
    IsHeld hash i chain r' selector := by
  obtain ⟨g, hg, name, hName, hSelector⟩ := h
  refine ⟨g, hg, name, ?_, hSelector⟩
  simp only [namesOf, List.mem_cons, Option.mem_toList] at hName ⊢
  exact hName.imp id (hNames g hg name)

/-- Definitions of the source are named somewhere, so that they can be given new names. -/
theorem exists_renameFamily (hSpans : i.unit.SpansFit i.text) (hChain : chain ⊆ i.contracts)
    {f : Family} (hf : f ∈ familiesOf chain) (r : Renames) (name : String) :
    ∃ r', renameFamily r name f = .ok r' := by
  have hEach : ∀ d ∈ f.definitions, ∀ r, ∃ r', rename r name d = .ok r' := by
    intro d hd r
    obtain ⟨hDefinition, hKind⟩ := mem_definitions hChain hf hd
    have hNamed := (spansFit_of_mem_definitions hSpans hDefinition).hasName hKind
    obtain ⟨span, hSpan⟩ := Option.isSome_iff_exists.mp hNamed
    exact ⟨_, by rw [rename, hSpan]⟩
  unfold renameFamily
  generalize f.definitions = definitions at hEach
  induction definitions generalizing r with
  | nil => exact ⟨r, rfl⟩
  | cons d rest ih =>
      obtain ⟨hHere, hRest⟩ := List.forall_mem_cons.mp hEach
      obtain ⟨middle, hMiddle⟩ := hHere r
      obtain ⟨r', hRun⟩ := ih middle hRest
      exact ⟨r', by rw [List.foldlM_cons, hMiddle]; exact hRun⟩

variable (hSpans : i.unit.SpansFit i.text) (hChain : chain ⊆ i.contracts)

include hSpans hChain

/-- The step that passes a name on changes neither the names of families nor the selectors. -/
theorem Held.passOn {f : Family} (hf : f ∈ familiesOf chain) {s : State}
    (h : Held hash i chain s) :
    ∃ s', passOn s f = .ok s' ∧ Held hash i chain s' ∧
      ∀ g ∈ familiesOf chain, inheritedName? s'.renames g = inheritedName? s.renames g := by
  unfold Collision.passOn
  cases hName : inheritedName? s.renames f with
  | none => exact ⟨s, rfl, h, fun g _ => rfl⟩
  | some name =>
      obtain ⟨r, hRename⟩ := exists_renameFamily hSpans hChain hf s.renames name
      have hSame : ∀ g ∈ familiesOf chain, inheritedName? r g = inheritedName? s.renames g := by
        intro g hg
        by_cases hFamily : g = f
        · rw [hFamily, hName]
          exact inheritedName?_renameFamily hRename
        · exact inheritedName?_renameFamily_of_ne hf hg hFamily hRename
      dsimp only
      rw [hRename]
      refine ⟨{ s with renames := r }, rfl, fun selector hSelector => ?_, hSame⟩
      exact (h selector hSelector).mono fun g hg name hName => (hSame g hg).trans hName

/-- The step that gives a fresh name. It fails only when no name is left. -/
theorem Held.renameFresh {f : Family} (hf : f ∈ familiesOf chain) {s : State}
    (h : Held hash i chain s) (hNone : inheritedName? s.renames f = none) :
    Meets (Stuck hash i chain)
      (fun s' => Held hash i chain s' ∧ ∀ g ∈ familiesOf chain, g ≠ f →
        inheritedName? s'.renames g = inheritedName? s.renames g)
      (renameFresh hash i s f) := by
  constructor
  · intro e he
    unfold Collision.renameFresh at he
    dsimp only at he
    split at he
    · rename_i name hName
      obtain ⟨r, hRename⟩ := exists_renameFamily hSpans hChain hf s.renames name
      rw [hRename] at he
      cases he
    · rename_i hNoName
      refine ⟨f, hf, (Except.error.inj he).symm, s.names, s.renames, fun n hn => ?_⟩
      have hAll := Renaming.firstFree?_eq_none (Option.map_eq_none_iff.mp hNoName) (Nat.zero_le n)
        (by omega)
      rw [Bool.or_eq_true, List.contains_iff_mem, List.contains_iff_mem] at hAll
      exact hAll.imp id (h _)
  · intro s' hRun
    obtain ⟨name, r, _, _, _, hRename, rfl⟩ := renameFresh_eq_ok hRun
    have hSame : ∀ g ∈ familiesOf chain, g ≠ f →
        inheritedName? r g = inheritedName? s.renames g := fun g hg hNe =>
      inheritedName?_renameFamily_of_ne hf hg hNe hRename
    refine ⟨List.forall_mem_cons.mpr ⟨?_, fun selector hSelector => ?_⟩, hSame⟩
    · refine ⟨f, hf, name, ?_, rfl⟩
      simp [namesOf, inheritedName?_renameFamily hRename]
    · refine (h selector hSelector).mono fun g hg other hOther => ?_
      -- A family that has a name already is not the one that gets it now.
      have hNe : g ≠ f := by
        rintro rfl
        rw [hNone] at hOther
        cases hOther
      exact (hSame g hg hNe).trans hOther

/-- The run: names that are passed on hold no further selectors. -/
theorem Held.passOn_all {members : List Family} (hMembers : members ⊆ familiesOf chain) {s : State}
    (h : Held hash i chain s) :
    Meets (Stuck hash i chain)
      (fun t => Held hash i chain t ∧ ∀ g ∈ familiesOf chain,
        inheritedName? t.renames g = inheritedName? s.renames g)
      (members.foldlM Collision.passOn s) := by
  have hStart : members ⊆ familiesOf chain ∧ Held hash i chain s ∧ ∀ g ∈ familiesOf chain,
      inheritedName? s.renames g = inheritedName? s.renames g := ⟨hMembers, h, fun _ _ => rfl⟩
  refine (Meets.foldlM (fun rest t => rest ⊆ familiesOf chain ∧ Held hash i chain t ∧
    ∀ g ∈ familiesOf chain, inheritedName? t.renames g = inheritedName? s.renames g) ?_ hStart).imp
    (fun _ he => he) fun t ht => ht.2
  rintro f rest t ⟨hFamilies, hHeld, hSame⟩
  obtain ⟨hf, hRest⟩ := List.cons_subset.mp hFamilies
  obtain ⟨t', hRun, hHeld', hSame'⟩ := hHeld.passOn hSpans hChain hf
  exact meets_of_eq_ok hRun ⟨hRest, hHeld', fun g hg => (hSame' g hg).trans (hSame g hg)⟩

/-- Fresh names are given to different families that have none. -/
theorem Held.renameFresh_all {members : List Family} (hMembers : members ⊆ familiesOf chain)
    (hOnce : members.Nodup) {s : State} (h : Held hash i chain s)
    (hNone : ∀ f ∈ members, inheritedName? s.renames f = none) :
    Meets (Stuck hash i chain) (Held hash i chain)
      (members.foldlM (Collision.renameFresh hash i) s) := by
  have hStart : members.Nodup ∧ members ⊆ familiesOf chain ∧ Held hash i chain s ∧
      ∀ f ∈ members, inheritedName? s.renames f = none := ⟨hOnce, hMembers, h, hNone⟩
  refine (Meets.foldlM (fun rest t => rest.Nodup ∧ rest ⊆ familiesOf chain ∧ Held hash i chain t ∧
    ∀ f ∈ rest, inheritedName? t.renames f = none) ?_ hStart).imp (fun _ he => he)
    fun t ht => ht.2.2.1
  rintro f rest t ⟨hOnce, hFamilies, hHeld, hNone⟩
  obtain ⟨hNew, hOnce⟩ := List.nodup_cons.mp hOnce
  obtain ⟨hf, hRest⟩ := List.cons_subset.mp hFamilies
  obtain ⟨hNoName, hNone⟩ := List.forall_mem_cons.mp hNone
  apply (hHeld.renameFresh hSpans hChain hf hNoName).imp (fun _ he => he)
  rintro t' ⟨hHeld', hSame⟩
  refine ⟨hOnce, hRest, hHeld', fun g hg => ?_⟩
  have hNe : g ≠ f := by
    rintro rfl
    exact hNew hg
  exact (hSame g (hRest hg) hNe).trans (hNone g hg)

/-- The run over one set of families. -/
theorem Held.separate {members : List Family} (hMembers : members ⊆ familiesOf chain)
    (hOnce : members.Nodup) {s : State} (h : Held hash i chain s) :
    Meets (Stuck hash i chain) (Held hash i chain) (separate hash i s members) := by
  apply (h.passOn_all hSpans hChain hMembers).bind
  rintro t ⟨hHeld, hSame⟩
  have hSublist (p q : Family → Bool) : ((members.filter p).filter q).Sublist members :=
    List.filter_sublist.trans List.filter_sublist
  apply hHeld.renameFresh_all hSpans hChain
  · exact List.Subset.trans (hSublist _ _).subset hMembers
  · exact (hSublist _ _).nodup hOnce
  · intro f hf
    obtain ⟨hMem, hNone⟩ := List.mem_filter.mp (List.mem_of_mem_filter hf)
    rw [hSame f (hMembers hMem)]
    exact Option.isNone_iff_eq_none.mp hNone

/-- The run over all sets of families that collide along a chain. -/
theorem Held.separateSets (c : Contract) {s : State} (h : Held hash i chain s) :
    FailsIn (Stuck hash i chain)
      (((groupsOf chain).flatMap fun group => collisions hash i group.2).foldlM
        (separateSet hash i c) (s, [])) := by
  refine (Meets.foldlM (fun rest found => Held hash i chain found.1 ∧
    ∀ set ∈ rest, set.2 ⊆ familiesOf chain ∧ set.2.Nodup) ?_ ⟨h, fun set hSet => ?_⟩).fails
  · rintro set rest found ⟨hHeld, hSets⟩
    obtain ⟨⟨hMembers, hOnce⟩, hRest⟩ := List.forall_mem_cons.mp hSets
    apply (hHeld.separate hSpans hChain hMembers hOnce).bind
    intro t ht
    exact meets_of_eq_ok rfl ⟨ht, hRest⟩
  · obtain ⟨group, hGroup, hSet⟩ := List.mem_flatMap.mp hSet
    refine ⟨fun f hf => ?_, nodup_of_mem_collisions hGroup hSet⟩
    exact (mem_groupsOf hGroup (subset_of_mem_collisions hSet hf)).1

end

section

variable {hash : String → Selector} {i : Index}

/-- The functions of a contract cannot be told apart for want of a new name. -/
def NoNameLeft (hash : String → Selector) (i : Index) (e : Error) : Prop :=
  ∃ c ∈ i.contracts, ∃ chain, i.linearize c.name = .ok chain ∧ Stuck hash i chain e

/-- Functions cannot be told apart because of a fault of the source, or because no new name is
left. -/
def Untold (hash : String → Selector) (i : Index) (e : Error) : Prop :=
  e.isSlip = false ∨ NoNameLeft hash i e

/-- That contracts cannot be put in order is a fault of the source. -/
theorem untold_of_linearize (name : String) : FailsIn (Untold hash i) (i.linearize name) :=
  fun e he => .inl (i.failsIn_linearize name e he)

theorem held_start {chain : List Contract} (r : Renames) (names : List String) :
    Held hash i chain ⟨names, takenSelectors hash i r (groupsOf chain), r⟩ := by
  intro selector hSelector
  obtain ⟨f, hf, rfl⟩ := List.mem_map.mp hSelector
  obtain ⟨group, hGroup, hf⟩ := List.mem_flatMap.mp hf
  refine ⟨f, (mem_groupsOf hGroup hf).1, _, ?_, rfl⟩
  cases hName : inheritedName? r f <;> simp [namesOf, hName]

/-- The step: a contract fails by a fault of the source, or because no new name is left. -/
theorem failsIn_separateContract (hSpans : i.unit.SpansFit i.text) {c : Contract}
    (hc : c ∈ i.contracts) (m : Marking) :
    FailsIn (Untold hash i) (separateContract hash i m c) := by
  apply FailsIn.bind
  · exact (untold_of_linearize c.name).bind fun chain _ => failsIn_ok _
  · intro groups hGroups
    obtain ⟨chain, hOrder, rfl⟩ := signatureGroups_eq_ok_iff.mp hGroups
    have hChain : chain ⊆ i.contracts := fun a ha =>
      Index.mem_contracts_of_contract? (Index.contract?_of_mem_linearize hOrder ha)
    apply FailsIn.bind
    · exact (FailsIn.mapM fun other _ => untold_of_linearize other.name).bind
        fun chains _ => failsIn_ok _
    · intro names _
      apply FailsIn.bind
      · intro e he
        exact .inr
          ⟨c, hc, chain, hOrder, (held_start m.renames names).separateSets hSpans hChain c e he⟩
      · exact fun found _ => failsIn_ok _

/-- Telling functions apart fails only if the ancestors of a contract have no order, or if no new
name is left. -/
theorem failsIn_separateAll (hSpans : i.unit.SpansFit i.text) :
    FailsIn (Untold hash i) (separateAll hash i) := by
  rw [separateAll_eq]
  apply FailsIn.bind
  · apply FailsIn.bind
    · apply FailsIn.mapM
      intro c _
      exact (untold_of_linearize c.name).bind fun chain _ => failsIn_ok _
    · exact fun depths _ => failsIn_ok _
  · intro order hOrder
    have hListed : order ⊆ i.contracts := fun c hc => (mem_visitOrder_iff hOrder).mp hc
    refine (Meets.foldlM (fun rest _ => rest ⊆ i.contracts) (fun c rest m hRest => ?_) hListed).fails
    obtain ⟨hc, hRest⟩ := List.cons_subset.mp hRest
    exact ⟨failsIn_separateContract hSpans hc m, fun _ _ => hRest⟩

end

end Collision

end SolNorm
