import SolNorm.Proofs.Selector.Overrides
import SolNorm.Proofs.Slips

/-!
What is reported of functions that could not be told apart. An entry is written when its contract has
been visited, with the names that are known by then. A contract that is visited later and inherits the
same definition may give it another name, and the entry is not written again. That is the only way in
which an entry comes to disagree with the table.
-/

namespace SolNorm.Collision

open Outline Outcome

variable {hash : String → Selector} {i : Index}

/-- The sets of families that collide along a chain have no family in common. -/
theorem pairwise_collisions (chain : List Contract) :
    ((groupsOf chain).flatMap fun group => collisions hash i group.2).Pairwise
      fun s t => ∀ f ∈ s.2, f ∉ t.2 := by
  rw [List.pairwise_flatMap]
  constructor
  · intro group _
    have hKeys := nodup_keys_groupByKey
      (fun f : Family => outsideSelector hash i f.name f.types) group.2
    rw [List.Nodup, List.pairwise_map] at hKeys
    refine (hKeys.filter _).imp_of_mem fun {s t} hs ht hNe f hf hf' => hNe ?_
    -- A family is in the set of its selector.
    rw [eq_filter_of_mem_groupByKey _ (List.mem_filter.mp hs).1, List.mem_filter, beq_iff_eq] at hf
    rw [eq_filter_of_mem_groupByKey _ (List.mem_filter.mp ht).1, List.mem_filter, beq_iff_eq] at hf'
    exact hf.2.symm.trans hf'.2
  · have hNames := nodup_keys_groupByKey Family.name
      ((familiesOf chain).filter fun f => f.effective.isExposed)
    rw [List.Nodup, List.pairwise_map] at hNames
    refine List.Pairwise.imp_of_mem (fun {g h} hg hh hNe s hs t ht f hf hf' => hNe ?_) hNames
    rw [← (mem_groupsOf hg (subset_of_mem_collisions hs hf)).2,
      ← (mem_groupsOf hh (subset_of_mem_collisions ht hf')).2]

/-- A set of families that is told apart leaves the names of other families as they are. -/
theorem find?_of_separate {chain : List Contract} {s s' : State} {members : List Family}
    {f : Family} (hMembers : members ⊆ familiesOf chain) (hf : f ∈ familiesOf chain)
    (hOther : f ∉ members) (hRun : separate hash i s members = .ok s') :
    s'.renames.find? f.effective.key = s.renames.find? f.effective.key := by
  apply separate_keeps (fun r => r.find? f.effective.key = s.renames.find? f.effective.key) _ rfl
    hRun
  intro g hg r r' name hSame hRename
  have hNe : f ≠ g := by
    rintro rfl
    exact hOther hg
  rw [find?_renameFamily_of_ne (hMembers hg) hf hNe f.effective_mem hRename, hSame]

/-- The entries that a visit adds are those of the colliding families, and they agree with the table
after the visit. -/
theorem entries_of_separateContract {m m' : Marking} {c : Contract}
    (hRun : separateContract hash i m c = .ok m') :
    ∃ chain new, i.linearize c.name = .ok chain ∧ m'.entries = m.entries ++ new ∧
      ∀ e ∈ new, ∃ f, Collides hash i chain f ∧
        e = entry hash i c m'.renames (outsideSelector hash i f.name f.types) f := by
  obtain ⟨groups, hGroups, hRun⟩ := bind_eq_ok_iff.mp hRun
  obtain ⟨names, _, hRun⟩ := bind_eq_ok_iff.mp hRun
  obtain ⟨⟨s, new⟩, hSets, rfl⟩ := bind_pure_eq_ok_iff.mp hRun
  obtain ⟨chain, hChain, rfl⟩ := signatureGroups_eq_ok_iff.mp hGroups
  refine ⟨chain, new, hChain, rfl, ?_⟩
  -- No set that is still to come has a family for which there is an entry.
  have hAll : Meets (fun _ => True)
      (fun found : State × List MarkedFunction => ∀ e ∈ found.2, ∃ f, Collides hash i chain f ∧
        e = entry hash i c found.1.renames (outsideSelector hash i f.name f.types) f)
      (((groupsOf chain).flatMap fun group => collisions hash i group.2).foldlM
        (separateSet hash i c)
        (⟨names, takenSelectors hash i m.renames (groupsOf chain), m.renames⟩, [])) := by
    refine (Meets.foldlM (fun rest found =>
      (rest.Pairwise fun s t => ∀ f ∈ s.2, f ∉ t.2) ∧
      (∀ set ∈ rest, ∃ group ∈ groupsOf chain, set ∈ collisions hash i group.2) ∧
      ∀ e ∈ found.2, ∃ f, Collides hash i chain f ∧ (∀ set ∈ rest, f ∉ set.2) ∧
        e = entry hash i c found.1.renames (outsideSelector hash i f.name f.types) f) ?_
      ⟨pairwise_collisions chain, ?_, ?_⟩).imp (fun _ he => he) fun found hFound e he => ?_
    · rintro set rest found ⟨hApart, hSets, hFound⟩
      obtain ⟨hHead, hApart⟩ := List.pairwise_cons.mp hApart
      obtain ⟨⟨group, hGroup, hSet⟩, hRest⟩ := List.forall_mem_cons.mp hSets
      have hCollides (f : Family) (hf : f ∈ set.2) : Collides hash i chain f :=
        collides_of_mem_collisions hGroup hSet hf
      refine ⟨fun _ _ => trivial, fun found' hOne => ?_⟩
      obtain ⟨t, hSeparate, rfl⟩ := bind_pure_eq_ok_iff.mp hOne
      refine ⟨hApart, hRest, fun e he => ?_⟩
      rcases List.mem_append.mp he with hOld | hNew
      · obtain ⟨f, hf, hOther, rfl⟩ := hFound e hOld
        obtain ⟨hHere, hOther⟩ := List.forall_mem_cons.mp hOther
        refine ⟨f, hf, hOther, ?_⟩
        unfold entry
        rw [find?_of_separate (fun g hg => (hCollides g hg).mem_familiesOf) hf.mem_familiesOf hHere
          hSeparate]
      · obtain ⟨f, hf, rfl⟩ := List.mem_map.mp hNew
        refine ⟨f, hCollides f hf, fun other hOther => hHead other hOther f hf, ?_⟩
        have hSelector : outsideSelector hash i f.name f.types = set.1 := by
          rw [eq_filter_of_mem_groupByKey _ (List.mem_filter.mp hSet).1, List.mem_filter,
            beq_iff_eq] at hf
          exact hf.2
        rw [hSelector]
    · intro set hSet
      exact List.mem_flatMap.mp hSet
    · intro e he
      cases he
    · obtain ⟨f, hf, _, hEntry⟩ := hFound.2.2 e he
      exact ⟨f, hf, hEntry⟩
  exact hAll.gives _ hSets

/-- A visit to a contract changes the name of a definition only if the contract inherits it and its
own functions of that signature have to be told apart. -/
theorem find?_of_separateContract {m m' : Marking} {p : Contract} {a : String}
    {chain : List Contract} {d : FunctionRef} (hChain : i.linearize a = .ok chain)
    (hd : d ∈ ordinaryFunctions chain)
    (hFree : ∀ around, i.linearize p.name = .ok around → d.contract ∈ around →
      ¬ CollidesIn hash i around d.key.name d.key.types)
    (hRun : separateContract hash i m p = .ok m') :
    m'.renames.find? d.key = m.renames.find? d.key := by
  apply separateContract_keeps (fun r => r.find? d.key = m.renames.find? d.key) _ rfl hRun
  intro around hAround f hf r r' name hSame hRename
  rw [find?_of_renameFamily hRename, if_neg, hSame]
  intro hKey
  have hFamily := hf.mem_familiesOf
  obtain ⟨e, he, hSameKey⟩ := List.mem_map.mp hKey
  obtain ⟨hName, hTypes⟩ := ((familiesOf_spec around).coherent f hFamily).key he
  rw [hSameKey] at hName hTypes
  have hListed : d ∈ definitionsOf chain f.name f.types :=
    mem_definitionsOf_iff.mpr ⟨hd, hName, hTypes⟩
  exact hFree around hAround ((mem_keys_iff hChain hAround hFamily hListed).mp hKey)
    ⟨f, hf, hName.symm, hTypes.symm⟩

/-- A definition is named again by a contract: the contract inherits it, and its own functions of that
signature have to be told apart. -/
def NamedAgain (hash : String → Selector) (i : Index) (p : Contract) (d : FunctionRef) : Prop :=
  ∃ around, i.linearize p.name = .ok around ∧ d.contract ∈ around ∧
    CollidesIn hash i around d.key.name d.key.types

/-- How an entry has come about: it was written for a family when a contract had been visited, and
unless a contract that was visited later has named the definition again, it has that name still. -/
structure Recorded (hash : String → Selector) (i : Index) (r : Renames) (e : MarkedFunction)
    (c : Contract) (later chain : List Contract) (f : Family) : Prop where
  order : i.linearize c.name = .ok chain
  collides : Collides hash i chain f
  written : ∃ known : Renames, known.Within r ∧
    e = entry hash i c known (outsideSelector hash i f.name f.types) f
  kept : (∀ p ∈ later, ¬ NamedAgain hash i p f.effective) →
    r.find? f.effective.key = e.newName

/-- The step: a visit to one more contract. -/
theorem Recorded.visit {m m' : Marking} {e : MarkedFunction} {c p : Contract}
    {later chain : List Contract} {f : Family}
    (h : Recorded hash i m.renames e c later chain f)
    (hRun : separateContract hash i m p = .ok m') :
    Recorded hash i m'.renames e c (later ++ [p]) chain f := by
  have hWithin : m.renames.Within m'.renames := by
    apply separateContract_keeps (fun r => m.renames.Within r) _ (fun _ hk => hk) hRun
    intro _ _ f _ r r' name hr hRename
    exact hr.trans (within_of_renameFamily hRename)
  obtain ⟨known, hKnown, hEntry⟩ := h.written
  refine ⟨h.order, h.collides, ⟨known, hKnown.trans hWithin, hEntry⟩, fun hNone => ?_⟩
  have hEffective : f.effective ∈ ordinaryFunctions chain :=
    (familiesOf_spec chain).known f h.collides.mem_familiesOf _ f.effective_mem
  rw [find?_of_separateContract h.order hEffective _ hRun]
  · exact h.kept fun q hq => hNone q (List.mem_append_left _ hq)
  · intro around hAround hIn hCollides
    exact hNone p (List.mem_append_right _ List.mem_cons_self) ⟨around, hAround, hIn, hCollides⟩

/-- The run: every entry has come about in a visit to a contract. -/
theorem exists_recorded {visited : List Contract} {m : Marking} {e : MarkedFunction}
    (hRun : visited.foldlM (separateContract hash i) .empty = .ok m) (he : e ∈ m.entries) :
    ∃ earlier c later chain f, visited = earlier ++ c :: later ∧
      Recorded hash i m.renames e c later chain f := by
  induction visited using List.reverseRecOn generalizing m e with
  | nil =>
      rw [List.foldlM_nil, pure_eq_ok_iff] at hRun
      rw [← hRun] at he
      cases he
  | append_singleton visited p ih =>
      rw [List.foldlM_append, bind_eq_ok_iff] at hRun
      obtain ⟨before, hBefore, hLast⟩ := hRun
      simp only [List.foldlM_cons, List.foldlM_nil, bind_pure] at hLast
      obtain ⟨own, new, hOwn, hEntries, hNew⟩ := entries_of_separateContract hLast
      rw [hEntries] at he
      rcases List.mem_append.mp he with hOld | hAdded
      · obtain ⟨earlier, c, later, chain, f, rfl, hRecorded⟩ := ih hBefore hOld
        exact ⟨earlier, c, later ++ [p], chain, f, by simp, hRecorded.visit hLast⟩
      · obtain ⟨f, hf, hEntry⟩ := hNew e hAdded
        refine ⟨visited, p, [], own, f, rfl, hOwn, hf, ⟨m.renames, fun _ hk => hk, hEntry⟩,
          fun _ => ?_⟩
        rw [hEntry]
        rfl

/-- An entry agrees with a table on a definition: it has the new name of the definition, or none if
there is none, and the selector under the name that the definition has in the end. -/
def Agrees (hash : String → Selector) (r : Renames) (e : MarkedFunction) (d : FunctionRef) : Prop :=
  e.newName = r.find? d.key ∧ e.selector = hash (signatureText (r.nameOf d) e.erasedTypes)

/-- A contract among those that are visited later names the definition again, and it has another new
name in the end than the entry says. -/
def Overruled (hash : String → Selector) (i : Index) (r : Renames) (later : List Contract)
    (e : MarkedFunction) (d : FunctionRef) : Prop :=
  ∃ p ∈ later, NamedAgain hash i p d ∧ ∃ n, r.find? d.key = some n ∧ e.newName ≠ some n

/-- An entry agrees with the final table on its effective definition exactly when no contract that is
visited later overrules it. -/
theorem agrees_iff_not_overruled {m : Marking} {e : MarkedFunction}
    (hRun : separateAll hash i = .ok m) (he : e ∈ m.entries) :
    ∃ earlier c later chain f, visitOrder i = .ok (earlier ++ c :: later) ∧ e.contract = c.name ∧
      i.linearize c.name = .ok chain ∧ f ∈ familiesOf chain ∧ f.name = e.name ∧
      f.types = e.types ∧
      (Agrees hash m.renames e f.effective ↔
        ¬ Overruled hash i m.renames later e f.effective) := by
  rw [separateAll_eq, bind_eq_ok_iff] at hRun
  obtain ⟨order, hOrder, hRun⟩ := hRun
  obtain ⟨earlier, c, later, chain, f, rfl, hRecorded⟩ := exists_recorded hRun he
  have hFamily := hRecorded.collides.mem_familiesOf
  obtain ⟨known, hKnown, rfl⟩ := hRecorded.written
  refine ⟨earlier, c, later, chain, f, hOrder, rfl, hRecorded.order, hFamily, rfl, rfl, ?_⟩
  constructor
  · rintro ⟨hName, _⟩ ⟨p, _, _, n, hFound, hOther⟩
    exact hOther (hName.trans hFound)
  · intro hFree
    have hName : known.find? f.effective.key = m.renames.find? f.effective.key := by
      by_contra hOther
      have hNamed : ∃ p ∈ later, NamedAgain hash i p f.effective := by
        by_contra hNone
        exact hOther (hRecorded.kept fun p hp hAgain => hNone ⟨p, hp, hAgain⟩).symm
      obtain ⟨p, hp, hAgain⟩ := hNamed
      -- A definition that has a new name once has one ever after.
      cases hFinal : m.renames.find? f.effective.key with
      | some n =>
          refine hFree ⟨p, hp, hAgain, n, hFinal, fun hSame => hOther ?_⟩
          rw [hFinal]
          exact hSame
      | none =>
          rw [hFinal] at hOther
          have hSome := hKnown _ (Option.isSome_iff_ne_none.mpr hOther)
          rw [hFinal] at hSome
          cases hSome
    refine ⟨hName, ?_⟩
    have hOwn : f.effective.function.name = f.name := (effective_key hFamily).1
    show outsideSelector hash i ((known.find? f.effective.key).getD f.name) f.types = _
    rw [Renames.nameOf, ← hName, hOwn]
    rfl

/-- Two functions of `A` meet, and the first of them meets another one in `B`. -/
def metAgain : Index :=
  { (default : Index) with
    unit := ⟨[contractOf "A" [] [overload "foo" "uint256[]" 10, overload "foo" "uint256[][]" 20],
      contractOf "B" ["A"] [overload "foo" "uint256" 30]], default⟩ }

/-- In `A` the first function keeps its name, and in `B` it gets another. The entry that `A` has for it
says that it has none. The hash is the length of a text. -/
theorem metAgain_overruled :
    ∃ m e later d, separateAll (fun text => text.length.toUInt32) metAgain = .ok m ∧
      e ∈ m.entries ∧ (e.contract, e.types, e.newName) = ("A", ["uint256[]"], none) ∧
      d.key = ⟨"A", "foo", ["uint256[]"]⟩ ∧ m.renames.find? d.key = some "foo_uint256_dyn" ∧
      Overruled (fun text => text.length.toUInt32) metAgain m.renames later e d := by
  have hRun : (separateAll (fun text => text.length.toUInt32) metAgain).map (fun m =>
      (m.entries.head?.map fun e => (e.contract, e.name, e.types, e.newName),
        m.renames.find? ⟨"A", "foo", ["uint256[]"]⟩)) =
        .ok (some ("A", "foo", ["uint256[]"], none), some "foo_uint256_dyn") := by
    cbv
  have hChain : (metAgain.linearize "A").map (fun chain => chain.map Contract.name) =
      .ok ["A"] := by
    cbv
  obtain ⟨m, hOk, hFound⟩ := map_eq_ok_iff.mp hRun
  obtain ⟨hFirst, hTable⟩ := Prod.mk.inj hFound
  obtain ⟨e, hHead, hEntry⟩ := Option.map_eq_some_iff.mp hFirst
  simp only [Prod.mk.injEq] at hEntry
  obtain ⟨hContract, hName, hTypes, hNew⟩ := hEntry
  have he := List.mem_of_mem_head? hHead
  obtain ⟨_, c, later, chain, f, _, hAt, hOrder, hf, hSameName, hSameTypes, hAgrees⟩ :=
    agrees_iff_not_overruled hOk he
  rw [← hAt, hContract] at hOrder
  rw [hOrder] at hChain
  have hNames : chain.map Contract.name = ["A"] := Except.ok.inj hChain
  have hKey : f.effective.key = ⟨"A", "foo", ["uint256[]"]⟩ := by
    have hOwner : f.effective.contract.name = "A" := by
      have hIn : f.effective.contract.name ∈ chain.map Contract.name :=
        List.mem_map_of_mem (mem_ordinaryFunctions_iff.mp
          ((familiesOf_spec chain).known f hf _ f.effective_mem)).1
      rw [hNames] at hIn
      exact List.mem_singleton.mp hIn
    obtain ⟨hOwnName, hOwnTypes⟩ := effective_key hf
    rw [hSameName, hName] at hOwnName
    rw [hSameTypes, hTypes] at hOwnTypes
    rw [FunctionRef.key, hOwner]
    exact congrArg₂ (FunctionKey.mk "A") hOwnName hOwnTypes
  refine ⟨m, e, later, f.effective, hOk, he, by rw [hContract, hTypes, hNew], hKey,
    hKey ▸ hTable, ?_⟩
  by_contra hNot
  have hSame := (hAgrees.mpr hNot).1
  rw [hNew, hKey, hTable] at hSame
  cases hSame

end SolNorm.Collision
