import SolNorm.Proofs.Ancestry
import SolNorm.Proofs.Selector.Naming
import SolNorm.Proofs.Selector.RenameTable

/-!
How functions are told apart. Each step gives one family a name; a step keeps the table of new names
sound and takes no new name away, and both carry over to whole contracts and to all of them. In the
end every new name belongs to one signature, and of two families of one name and one selector at
least one has got a new name.
-/

namespace SolNorm.Collision

open Outline

variable {hash : String → Selector} {i : Index} {c : Contract} {exposed : List Family}

/-- A name is passed on if a definition of the family has one, and otherwise nothing happens. -/
theorem passOn_eq_ok {s s' : State} {f : Family} (h : passOn s f = .ok s') :
    (∃ name r, inheritedName? s.renames f = some name ∧
      renameFamily s.renames name f = .ok r ∧ s' = { s with renames := r }) ∨
    (inheritedName? s.renames f = none ∧ s' = s) := by
  unfold passOn at h
  split at h
  · rename_i name hName
    obtain ⟨r, hRename, rfl⟩ := Outcome.bind_pure_eq_ok_iff.mp h
    exact .inl ⟨name, r, hName, hRename, rfl⟩
  · rename_i hNone
    rw [Outcome.pure_eq_ok_iff] at h
    exact .inr ⟨hNone, h.symm⟩

/-- A fresh name is a candidate for the family that is not taken and whose selector is not taken
either. -/
theorem renameFresh_eq_ok {s s' : State} {f : Family} (h : renameFresh hash i s f = .ok s') :
    ∃ name r, name ∉ s.names ∧ outsideSelector hash i name f.types ∉ s.selectors ∧
      (∃ n, name = Renaming.candidate (Renaming.extend f.name f.types) n) ∧
      renameFamily s.renames name f = .ok r ∧
      s' = ⟨name :: s.names, outsideSelector hash i name f.types :: s.selectors, r⟩ := by
  unfold renameFresh at h
  cases hFresh : Renaming.freshName? s.names s.selectors
      (fun name => outsideSelector hash i name f.types) (Renaming.extend f.name f.types) with
  | none =>
      simp only [hFresh] at h
      exact (Outcome.throw_eq_ok_iff.mp h).elim
  | some name =>
      obtain ⟨hName, hSelector, hForm⟩ := Renaming.freshName?_eq_some hFresh
      simp only [hFresh] at h
      obtain ⟨r, hRename, rfl⟩ := Outcome.bind_pure_eq_ok_iff.mp h
      exact ⟨name, r, hName, hSelector, hForm, hRename, rfl⟩

/-- What is known while the functions of a contract are told apart. The selector under its own name
is taken for every family that has no new name, so no family is given its own name. -/
structure Ready (hash : String → Selector) (i : Index) (c : Contract) (exposed : List Family)
    (s : State) : Prop where
  sound : Sound i s.renames
  listed : ∀ {k : FunctionKey} {n : String}, s.renames.find? k = some n → n ∈ s.names
  clear : ∀ {n : String}, n ∉ s.names → ClearOf i c n
  taken : ∀ f ∈ exposed, inheritedName? s.renames f = none →
    outsideSelector hash i f.name f.types ∈ s.selectors

/-- A state that comes after another has all of its new names and all of its selectors. -/
structure Follows (s s' : State) : Prop where
  renames : s.renames.Within s'.renames
  selectors : s.selectors ⊆ s'.selectors

theorem Follows.refl (s : State) : Follows s s := ⟨fun _ h => h, List.Subset.refl _⟩

theorem Follows.trans {s s' s'' : State} (h : Follows s s') (h' : Follows s' s'') :
    Follows s s'' :=
  ⟨h.renames.trans h'.renames, List.Subset.trans h.selectors h'.selectors⟩

/-- After a family has been given a name, the names in the table are listed if that name is. -/
theorem listed_of_renameFamily {r r' : Renames} {names names' : List String} {name : String}
    {f : Family} (hListed : ∀ {k : FunctionKey} {n : String}, r.find? k = some n → n ∈ names)
    (hNames : names ⊆ names') (hName : name ∈ names') (hRun : renameFamily r name f = .ok r')
    {k : FunctionKey} {n : String} (hFind : r'.find? k = some n) : n ∈ names' := by
  rw [find?_of_renameFamily hRun] at hFind
  split at hFind
  · cases hFind
    exact hName
  · exact hNames (hListed hFind)

/-- The step that passes a name on. -/
theorem Ready.passOn {s s' : State} {f : Family} (h : Ready hash i c exposed s)
    (hFamily : f.Coherent) (hRun : passOn s f = .ok s') :
    Ready hash i c exposed s' ∧ Follows s s' := by
  rcases passOn_eq_ok hRun with ⟨name, r, hName, hRename, rfl⟩ | ⟨_, rfl⟩
  · have hWithin := within_of_renameFamily hRename
    obtain ⟨d, _, hFind⟩ := List.exists_of_findSome?_eq_some hName
    obtain ⟨hChosen, hKin⟩ := h.sound.inherited hFamily hName
    refine ⟨⟨?_, ?_, h.clear, ?_⟩, hWithin, List.Subset.refl _⟩
    · exact h.sound.rename hFamily hChosen hKin hRename
    · exact listed_of_renameFamily h.listed (List.Subset.refl _) (h.listed hFind) hRename
    · intro g hg hNone
      exact h.taken g hg (inheritedName?_eq_none_of_within hWithin hNone)
  · exact ⟨h, Follows.refl _⟩

/-- The step that gives a fresh name. -/
theorem Ready.renameFresh {s s' : State} {f : Family} (h : Ready hash i c exposed s)
    (hc : c ∈ i.contracts) (hFamily : f.Coherent)
    (hOwn : outsideSelector hash i f.name f.types ∈ s.selectors)
    (hRun : renameFresh hash i s f = .ok s') : Ready hash i c exposed s' ∧ Follows s s' := by
  obtain ⟨name, r, hName, hSelector, hForm, hRename, rfl⟩ := renameFresh_eq_ok hRun
  have hWithin := within_of_renameFamily hRename
  have hChosen : Chosen i f.name f.types name :=
    { moves := fun hSame => hSelector (hSame ▸ hOwn)
      extended := hForm
      clear := ⟨c, hc, h.clear hName⟩ }
  refine ⟨⟨?_, ?_, ?_, ?_⟩, hWithin, List.subset_cons_self _ _⟩
  · exact h.sound.rename hFamily hChosen (fun k hk => absurd (h.listed hk) hName) hRename
  · exact listed_of_renameFamily h.listed (List.subset_cons_self _ _) List.mem_cons_self hRename
  · intro n hn
    exact h.clear fun hMem => hn (List.mem_cons_of_mem _ hMem)
  · intro g hg hNone
    exact List.mem_cons_of_mem _ (h.taken g hg (inheritedName?_eq_none_of_within hWithin hNone))

/-- Passing on the names of several families. -/
theorem Ready.passOn_all {s s' : State} {members : List Family} (h : Ready hash i c exposed s)
    (hFamilies : ∀ f ∈ members, f.Coherent) (hRun : members.foldlM Collision.passOn s = .ok s') :
    Ready hash i c exposed s' ∧ Follows s s' := by
  refine Outcome.foldlM_keeps (fun t => Ready hash i c exposed t ∧ Follows s t) ?_
    ⟨h, Follows.refl s⟩ hRun
  rintro f hf t t' ⟨hReady, hFollows⟩ hStep
  obtain ⟨hReady', hFollows'⟩ := hReady.passOn (hFamilies f hf) hStep
  exact ⟨hReady', hFollows.trans hFollows'⟩

/-- Giving fresh names to several families. -/
theorem Ready.renameFresh_all {s s' : State} {members : List Family}
    (h : Ready hash i c exposed s) (hc : c ∈ i.contracts) (hFamilies : ∀ f ∈ members, f.Coherent)
    (hOwn : ∀ f ∈ members, outsideSelector hash i f.name f.types ∈ s.selectors)
    (hRun : members.foldlM (Collision.renameFresh hash i) s = .ok s') :
    Ready hash i c exposed s' ∧ Follows s s' := by
  refine Outcome.foldlM_keeps (fun t => Ready hash i c exposed t ∧ Follows s t) ?_
    ⟨h, Follows.refl s⟩ hRun
  rintro f hf t t' ⟨hReady, hFollows⟩ hStep
  obtain ⟨hReady', hFollows'⟩ :=
    hReady.renameFresh hc (hFamilies f hf) (hFollows.selectors (hOwn f hf)) hStep
  exact ⟨hReady', hFollows.trans hFollows'⟩

theorem within_of_passOn {s s' : State} {f : Family} (h : passOn s f = .ok s') :
    s.renames.Within s'.renames := by
  rcases passOn_eq_ok h with ⟨name, r, _, hRename, rfl⟩ | ⟨_, rfl⟩
  · exact within_of_renameFamily hRename
  · exact fun _ hk => hk

theorem within_of_renameFresh {s s' : State} {f : Family} (h : renameFresh hash i s f = .ok s') :
    s.renames.Within s'.renames := by
  obtain ⟨name, r, _, _, _, hRename, rfl⟩ := renameFresh_eq_ok h
  exact within_of_renameFamily hRename

/-- When names are passed on, a family of which some definition has a new name is settled. -/
theorem settled_of_passOn_all {s s' : State} {members : List Family} {f : Family}
    (hf : f ∈ members) (hName : inheritedName? s.renames f ≠ none)
    (hRun : members.foldlM passOn s = .ok s') : Settled s'.renames f := by
  refine Outcome.foldlM_establishes (fun t => inheritedName? t.renames f ≠ none)
    (fun t => Settled t.renames f) hf ?_ ?_ ?_ hName hRun
  · intro g _ t t' hKnown hStep hNone
    exact hKnown (inheritedName?_eq_none_of_within (within_of_passOn hStep) hNone)
  · intro t t' hKnown hStep
    rcases passOn_eq_ok hStep with ⟨name, r, _, hRename, rfl⟩ | ⟨hNone, _⟩
    · exact settled_of_renameFamily hRename
    · exact absurd hNone hKnown
  · intro g _ t t' _ hSettled hStep
    exact hSettled.mono (within_of_passOn hStep)

/-- When fresh names are given, all families that are given one are settled. -/
theorem settled_of_renameFresh_all {s s' : State} {members : List Family} {f : Family}
    (hf : f ∈ members) (hRun : members.foldlM (renameFresh hash i) s = .ok s') :
    Settled s'.renames f := by
  refine Outcome.foldlM_establishes (fun _ => True) (fun t => Settled t.renames f) hf
    (fun _ _ _ _ _ _ => trivial) ?_ ?_ trivial hRun
  · intro t t' _ hStep
    obtain ⟨name, r, _, _, _, hRename, rfl⟩ := renameFresh_eq_ok hStep
    exact settled_of_renameFamily hRename
  · intro g _ t t' _ hSettled hStep
    exact hSettled.mono (within_of_renameFresh hStep)

/-- Telling families of one selector apart: of any two of them, at least one has a new name in the
end. -/
theorem Ready.separate {s s' : State} {members : List Family} (h : Ready hash i c exposed s)
    (hc : c ∈ i.contracts) (hExposed : members ⊆ exposed)
    (hFamilies : ∀ f ∈ exposed, f.Coherent) (hRun : separate hash i s members = .ok s') :
    (Ready hash i c exposed s' ∧ Follows s s') ∧
      ∀ f ∈ members, ∀ g ∈ members, f ≠ g → Settled s'.renames f ∨ Settled s'.renames g := by
  obtain ⟨middle, hPassed, hRenamed⟩ := Outcome.bind_eq_ok_iff.mp hRun
  obtain ⟨hMiddle, hFirst⟩ := h.passOn_all (fun f hf => hFamilies f (hExposed hf)) hPassed
  have hPending : ∀ f ∈ members.filter fun f => (inheritedName? s.renames f).isNone,
      f ∈ exposed ∧ inheritedName? s.renames f = none := by
    intro f hf
    obtain ⟨hMem, hNone⟩ := List.mem_filter.mp hf
    exact ⟨hExposed hMem, Option.isNone_iff_eq_none.mp hNone⟩
  obtain ⟨hEnd, hSecond⟩ := hMiddle.renameFresh_all hc
    (fun f hf => hFamilies f (hPending f (List.mem_of_mem_filter hf)).1)
    (fun f hf => by
      obtain ⟨hMem, hNone⟩ := hPending f (List.mem_of_mem_filter hf)
      exact hFirst.selectors (h.taken f hMem hNone)) hRenamed
  refine ⟨⟨hEnd, hFirst.trans hSecond⟩, ?_⟩
  -- Only the family that keeps its name is left unsettled.
  have hSettled (f : Family) (hf : f ∈ members)
      (hNot : some f ≠ keeper? (members.filter fun f => (inheritedName? s.renames f).isNone)) :
      Settled s'.renames f := by
    by_cases hNone : inheritedName? s.renames f = none
    · refine settled_of_renameFresh_all (List.mem_filter.mpr ⟨?_, ?_⟩) hRenamed
      · exact List.mem_filter.mpr ⟨hf, by rw [hNone]; rfl⟩
      · rw [bne_iff_ne]
        exact hNot
    · exact (settled_of_passOn_all hf hNone hPassed).mono hSecond.renames
  intro f hf g hg hNe
  by_cases hKeeper : some f = keeper? (members.filter fun f => (inheritedName? s.renames f).isNone)
  · refine .inr (hSettled g hg fun hSame => hNe ?_)
    rw [← hSame] at hKeeper
    exact Option.some.inj hKeeper
  · exact .inl (hSettled f hf hKeeper)

/-- Of any two families of one name and one selector, at least one has a new name. -/
def ToldApart (hash : String → Selector) (i : Index) (groups : List (String × List Family))
    (r : Renames) : Prop :=
  ∀ group ∈ groups, ∀ f ∈ group.2, ∀ g ∈ group.2, f ≠ g →
    outsideSelector hash i f.name f.types = outsideSelector hash i g.name g.types →
    Settled r f ∨ Settled r g

theorem ToldApart.mono {groups : List (String × List Family)} {r r' : Renames}
    (h : ToldApart hash i groups r) (hWithin : r.Within r') : ToldApart hash i groups r' :=
  fun group hGroup f hf g hg hNe hSame =>
    (h group hGroup f hf g hg hNe hSame).imp (·.mono hWithin) (·.mono hWithin)

/-- Of two families that are told apart, not both keep their names. -/
theorem ToldApart.renamed {groups : List (String × List Family)} {r : Renames}
    (h : ToldApart hash i groups r) {group : String × List Family} (hGroup : group ∈ groups)
    {f g : Family} (hf : f ∈ group.2) (hg : g ∈ group.2) (hNe : f ≠ g)
    (hSame : outsideSelector hash i f.name f.types = outsideSelector hash i g.name g.types) :
    ¬ (r.find? f.effective.key = none ∧ r.find? g.effective.key = none) := by
  rintro ⟨hfNone, hgNone⟩
  rcases h group hGroup f hf g hg hNe hSame with hSettled | hSettled
  · simpa [hfNone] using hSettled f.effective f.effective_mem
  · simpa [hgNone] using hSettled g.effective g.effective_mem

/-- Two families of one name and one selector are together in a set of families to be told apart. -/
theorem exists_collision {families : List Family} {f g : Family} (hf : f ∈ families)
    (hg : g ∈ families) (hNe : f ≠ g)
    (hSame : outsideSelector hash i f.name f.types = outsideSelector hash i g.name g.types) :
    ∃ set ∈ collisions hash i families, f ∈ set.2 ∧ g ∈ set.2 := by
  obtain ⟨set, hSet, _, hMembers⟩ :=
    exists_mem_groupByKey (fun f : Family => outsideSelector hash i f.name f.types) hf
  have hfSet := hMembers f hf rfl
  have hgSet := hMembers g hg hSame.symm
  refine ⟨set, List.mem_filter.mpr ⟨hSet, ?_⟩, hfSet, hgSet⟩
  obtain ⟨key, members⟩ := set
  rcases members with _ | ⟨x, _ | ⟨y, rest⟩⟩
  · cases hfSet
  · exact absurd ((List.mem_singleton.mp hfSet).trans (List.mem_singleton.mp hgSet).symm) hNe
  · simp

/-- Only families that are compared can collide. -/
theorem subset_of_mem_collisions {families : List Family} {set : Selector × List Family}
    (h : set ∈ collisions hash i families) : set.2 ⊆ families := by
  intro f hf
  rw [eq_filter_of_mem_groupByKey _ (List.mem_filter.mp h).1] at hf
  exact List.mem_of_mem_filter hf

/-- The names that may not be taken hold all new names, and every other name is clear of the
contract. -/
theorem takenNames_eq_ok {r : Renames} {names : List String} (h : takenNames i r c = .ok names) :
    (∀ {k : FunctionKey} {n : String}, r.find? k = some n → n ∈ names) ∧
      ∀ {n : String}, n ∉ names → ClearOf i c n := by
  obtain ⟨chains, hChains, rfl⟩ := Outcome.bind_pure_eq_ok_iff.mp h
  constructor
  · intro k n hFind
    exact List.mem_append_left _ (Renames.mem_names_of_find? hFind)
  · intro n hn other hOther chain hChain hInherits a ha g hg hName
    obtain ⟨chain', hMem, hOk⟩ := Outcome.exists_result_of_mem hChains hOther
    rw [hChain, Except.ok.injEq] at hOk
    subst hOk
    refine hn (List.mem_append_right _ (List.mem_flatMap.mpr ⟨chain, ?_, ?_⟩))
    · obtain ⟨b, hb, hSame⟩ := List.mem_map.mp hInherits
      exact List.mem_filter.mpr ⟨hMem, List.any_eq_true.mpr ⟨b, hb, beq_iff_eq.mpr hSame⟩⟩
    · exact List.mem_flatMap.mpr ⟨a, ha, List.mem_map.mpr ⟨g, hg, hName⟩⟩

/-- The state in which the functions of a contract begin to be told apart. -/
theorem Ready.start (hash : String → Selector) (groups : List (String × List Family)) {r : Renames}
    {names : List String} (hSound : Sound i r) (hNames : takenNames i r c = .ok names) :
    Ready hash i c (groups.flatMap Prod.snd) ⟨names, takenSelectors hash i r groups, r⟩ := by
  obtain ⟨hListed, hClear⟩ := takenNames_eq_ok hNames
  refine ⟨hSound, hListed, hClear, fun f hf hNone => ?_⟩
  exact List.mem_map.mpr ⟨f, hf, by rw [hNone, Option.getD_none]⟩

/-- The step that tells the families of one set apart. -/
theorem Ready.separateSet {found found' : State × List MarkedFunction}
    {set : Selector × List Family} (h : Ready hash i c exposed found.1) (hc : c ∈ i.contracts)
    (hExposed : set.2 ⊆ exposed) (hFamilies : ∀ f ∈ exposed, f.Coherent)
    (hRun : separateSet hash i c found set = .ok found') :
    (Ready hash i c exposed found'.1 ∧ Follows found.1 found'.1) ∧
      ∀ f ∈ set.2, ∀ g ∈ set.2, f ≠ g →
        Settled found'.1.renames f ∨ Settled found'.1.renames g := by
  obtain ⟨s, hSeparate, rfl⟩ := Outcome.bind_pure_eq_ok_iff.mp hRun
  exact h.separate hc hExposed hFamilies hSeparate

/-- Telling the functions of a contract apart. -/
theorem separateContract_eq_ok {m m' : Marking} (hc : c ∈ i.contracts)
    (hSound : Sound i m.renames) (hRun : separateContract hash i m c = .ok m') :
    Sound i m'.renames ∧ m.renames.Within m'.renames ∧
      ∃ groups, i.signatureGroups c = .ok groups ∧ ToldApart hash i groups m'.renames := by
  obtain ⟨groups, hGroups, hRun⟩ := Outcome.bind_eq_ok_iff.mp hRun
  obtain ⟨names, hNames, hRun⟩ := Outcome.bind_eq_ok_iff.mp hRun
  obtain ⟨⟨s, entries⟩, hSets, rfl⟩ := Outcome.bind_pure_eq_ok_iff.mp hRun
  have hFamilies : ∀ f ∈ groups.flatMap Prod.snd, f.Coherent := by
    obtain ⟨chain, _, rfl⟩ := signatureGroups_eq_ok_iff.mp hGroups
    intro f hf
    obtain ⟨group, hGroup, hMem⟩ := List.mem_flatMap.mp hf
    exact (familiesOf_spec chain).coherent f (mem_groupsOf hGroup hMem).1
  have hExposed : ∀ set ∈ groups.flatMap (fun group => collisions hash i group.2),
      set.2 ⊆ groups.flatMap Prod.snd := by
    intro set hSet f hf
    obtain ⟨group, hGroup, hMem⟩ := List.mem_flatMap.mp hSet
    exact List.mem_flatMap.mpr ⟨group, hGroup, subset_of_mem_collisions hMem hf⟩
  have hStart := Ready.start hash groups hSound hNames
  have hEnd := Outcome.foldlM_keeps
    (fun found => Ready hash i c (groups.flatMap Prod.snd) found.1 ∧
      m.renames.Within found.1.renames)
    (fun set hSet found found' hBoth hOk => by
      obtain ⟨hReady, hFollows⟩ := (hBoth.1.separateSet hc (hExposed set hSet) hFamilies hOk).1
      exact ⟨hReady, hBoth.2.trans hFollows.renames⟩)
    ⟨hStart, fun _ hk => hk⟩ hSets
  refine ⟨hEnd.1.sound, hEnd.2, groups, hGroups, ?_⟩
  intro group hGroup f hf g hg hNe hSame
  obtain ⟨set, hSet, hfSet, hgSet⟩ := exists_collision hf hg hNe hSame
  have hSet' : set ∈ groups.flatMap fun group => collisions hash i group.2 :=
    List.mem_flatMap.mpr ⟨group, hGroup, hSet⟩
  refine Outcome.foldlM_establishes
    (fun found => Ready hash i c (groups.flatMap Prod.snd) found.1)
    (fun found => Settled found.1.renames f ∨ Settled found.1.renames g) hSet' ?_ ?_ ?_
    hStart hSets
  · intro set hSet found found' hReady hOk
    exact (hReady.separateSet hc (hExposed set hSet) hFamilies hOk).1.1
  · intro found found' hReady hOk
    exact (hReady.separateSet hc (hExposed set hSet') hFamilies hOk).2 f hfSet g hgSet hNe
  · intro set hSet found found' hReady hSettled hOk
    have hFollows := (hReady.separateSet hc (hExposed set hSet) hFamilies hOk).1.2
    exact hSettled.imp (·.mono hFollows.renames) (·.mono hFollows.renames)

/-- The contracts in the order in which they are visited: those with the fewest ancestors first. -/
def visitOrder (i : Index) : Except Error (List Contract) := do
  let depths ← i.contracts.mapM fun c => do return ((← i.linearize c.name).length, c)
  return (depths.mergeSort fun a b => a.1 ≤ b.1).map Prod.snd

/-- Contracts are told apart one after the other, in the order in which they are visited. -/
theorem separateAll_eq (hash : String → Selector) (i : Index) :
    separateAll hash i =
      visitOrder i >>= fun order => order.foldlM (separateContract hash i) .empty := by
  unfold separateAll visitOrder
  rw [bind_assoc]
  rfl

/-- All contracts are visited. -/
theorem mem_visitOrder_iff {order : List Contract} (h : visitOrder i = .ok order) {c : Contract} :
    c ∈ order ↔ c ∈ i.contracts := by
  obtain ⟨depths, hDepths, rfl⟩ := Outcome.bind_pure_eq_ok_iff.mp h
  simp only [List.mem_map, List.mem_mergeSort]
  constructor
  · rintro ⟨entry, hEntry, rfl⟩
    obtain ⟨a, ha, hOk⟩ := Outcome.exists_of_mem_result hDepths hEntry
    obtain ⟨chain, _, rfl⟩ := Outcome.bind_pure_eq_ok_iff.mp hOk
    exact ha
  · intro hc
    obtain ⟨entry, hEntry, hOk⟩ := Outcome.exists_result_of_mem hDepths hc
    obtain ⟨chain, _, rfl⟩ := Outcome.bind_pure_eq_ok_iff.mp hOk
    exact ⟨_, hEntry, rfl⟩

/-- Telling the functions of all contracts apart: the table is sound in the end, and the functions of
every contract are told apart. -/
theorem separateAll_eq_ok {m : Marking} (hRun : separateAll hash i = .ok m) :
    Sound i m.renames ∧ ∀ c ∈ i.contracts,
      ∃ groups, i.signatureGroups c = .ok groups ∧ ToldApart hash i groups m.renames := by
  rw [separateAll_eq, Outcome.bind_eq_ok_iff] at hRun
  obtain ⟨order, hOrder, hRun⟩ := hRun
  have hStep : ∀ c ∈ order, ∀ m m' : Marking,
      Sound i m.renames → separateContract hash i m c = .ok m' → Sound i m'.renames :=
    fun c hc m m' hSound hOk =>
      (separateContract_eq_ok ((mem_visitOrder_iff hOrder).mp hc) hSound hOk).1
  refine ⟨Outcome.foldlM_keeps (fun m => Sound i m.renames) hStep (Sound.empty i) hRun, ?_⟩
  intro c hc
  refine Outcome.foldlM_establishes (fun m => Sound i m.renames)
    (fun m => ∃ groups, i.signatureGroups c = .ok groups ∧ ToldApart hash i groups m.renames)
    ((mem_visitOrder_iff hOrder).mpr hc) hStep ?_ ?_ (Sound.empty i) hRun
  · intro m m' hSound hOk
    exact (separateContract_eq_ok hc hSound hOk).2.2
  · rintro d hd m m' hSound ⟨groups, hGroups, hApart⟩ hOk
    have hWithin :=
      (separateContract_eq_ok ((mem_visitOrder_iff hOrder).mp hd) hSound hOk).2.1
    exact ⟨groups, hGroups, hApart.mono hWithin⟩

/-- What it means for a table of new names to separate the functions that cannot be told apart. A new
name belongs to one old name and one list of types; and of two families of one name and one selector,
in any contract, not both keep their names, and the names that they have in the end are different. -/
structure Separates (hash : String → Selector) (i : Index) (r : Renames) : Prop where
  signature : ∀ (a b : FunctionKey) (n : String), r.find? a = some n → r.find? b = some n →
    a.name = b.name ∧ a.types = b.types
  overloads : ∀ c ∈ i.contracts, ∃ groups, i.signatureGroups c = .ok groups ∧
    ∀ group ∈ groups, ∀ f ∈ group.2, ∀ g ∈ group.2, f ≠ g →
      outsideSelector hash i f.name f.types = outsideSelector hash i g.name g.types →
      ¬ (r.find? f.effective.key = none ∧ r.find? g.effective.key = none) ∧
        r.nameOf f.effective ≠ r.nameOf g.effective

/-- Whatever the hash is, the new names separate every set of functions that cannot be told apart
once all contracts have been visited. -/
theorem separateAll_separates {m : Marking} (hRun : separateAll hash i = .ok m) :
    Separates hash i m.renames := by
  obtain ⟨hSound, hApart⟩ := separateAll_eq_ok hRun
  refine ⟨fun a b n => hSound.separates, fun c hc => ?_⟩
  obtain ⟨groups, hGroups, hApart⟩ := hApart c hc
  refine ⟨groups, hGroups, fun group hGroup f hf g hg hNe hSame => ?_⟩
  have hNew := hApart.renamed hGroup hf hg hNe hSame
  obtain ⟨chain, _, rfl⟩ := signatureGroups_eq_ok_iff.mp hGroups
  obtain ⟨hfChain, hfName⟩ := mem_groupsOf hGroup hf
  obtain ⟨hgChain, hgName⟩ := mem_groupsOf hGroup hg
  obtain ⟨hfOwn, hfTypes⟩ := effective_key hfChain
  obtain ⟨hgOwn, hgTypes⟩ := effective_key hgChain
  have hName : f.name = g.name := hfName.trans hgName.symm
  refine ⟨hNew, hSound.nameOf_ne (hfOwn.trans (hName.trans hgOwn.symm)) ?_ hNew⟩
  intro hTypes
  exact hNe (family_unique hfChain hgChain hName (hfTypes.symm.trans (hTypes.trans hgTypes)))

/-- A public function of one parameter. -/
def overload (name type : String) (start : Nat) : Function :=
  { (default : Function) with
    kind := .function, name, nameSpan := some ⟨start, start + name.length⟩
    parameters := [{ (default : Variable) with type := ⟨type, default⟩ }]
    visibility := some .publicly }

/-- A contract with bases of some names. -/
def contractOf (name : String) (bases : List String) (functions : List Function) : Item :=
  .contract { (default : Contract) with
    name, functions, bases := bases.map fun name => { (default : Invocation) with name } }

/-- Two contracts without bases declare one function each, of the same name and types, and get new
names for it in different contracts that inherit them; a fifth contract inherits both. -/
def twoBases : Index :=
  { (default : Index) with
    unit := ⟨[contractOf "A" [] [overload "f" "uint256[]" 10],
      contractOf "B" [] [overload "f" "uint256[]" 20],
      contractOf "C" ["A"] [overload "f" "uint256" 30],
      contractOf "D" ["B"] [overload "f" "uint256" 40],
      contractOf "E" ["C", "D"] []], default⟩ }

/-- The name chosen in `D` is another one than that in `C`, and it is given up again in `E`. The hash
is the length of a text, so that different names may have one selector. -/
theorem twoBases_separated :
    ∃ m, separateAll (fun text => text.length.toUInt32) twoBases = .ok m ∧
      m.entries.map (fun e => (e.contract, e.types, e.newName)) =
        [("C", ["uint256[]"], some "f_uint256_dyn"), ("C", ["uint256"], none),
          ("D", ["uint256[]"], some "f_uint256_dyn_2"), ("D", ["uint256"], none),
          ("E", ["uint256[]"], some "f_uint256_dyn"), ("E", ["uint256"], none)] ∧
      m.renames.map Rename.name = ["f_uint256_dyn", "f_uint256_dyn"] ∧
      Separates (fun text => text.length.toUInt32) twoBases m.renames := by
  have hRun : (separateAll (fun text => text.length.toUInt32) twoBases).map (fun m =>
      (m.entries.map fun e => (e.contract, e.types, e.newName), m.renames.map Rename.name)) =
        .ok ([("C", ["uint256[]"], some "f_uint256_dyn"), ("C", ["uint256"], none),
          ("D", ["uint256[]"], some "f_uint256_dyn_2"), ("D", ["uint256"], none),
          ("E", ["uint256[]"], some "f_uint256_dyn"), ("E", ["uint256"], none)],
          ["f_uint256_dyn", "f_uint256_dyn"]) := by
    cbv
  obtain ⟨m, hOk, hFound⟩ := Outcome.map_eq_ok_iff.mp hRun
  rw [Prod.mk.injEq] at hFound
  exact ⟨m, hOk, hFound.1, hFound.2, separateAll_separates hOk⟩

end SolNorm.Collision
