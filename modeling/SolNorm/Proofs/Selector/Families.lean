import SolNorm.Index.Signature
import SolNorm.Proofs.Outcome

/-!
How the functions along a chain fall into families and groups. A family holds definitions of its own
name and types only, no two families have the same name and types, and the families of one name stand
in one group.
-/

namespace SolNorm

open Outline

section Grouping

variable {κ α : Type} [BEq κ] [LawfulBEq κ] (key : α → κ)

/-- One more entry changes the entries of its own key only. -/
theorem mem_addByKey {groups : List (κ × List α)} {a : α} {g : κ × List α}
    (h : g ∈ addByKey key groups a) :
    (∃ old ∈ groups, g = (old.1, old.2 ++ if key a == old.1 then [a] else [])) ∨
      (g = (key a, [a]) ∧ ∀ old ∈ groups, old.1 ≠ key a) := by
  unfold addByKey at h
  split at h
  · obtain ⟨old, hOld, rfl⟩ := List.mem_map.mp h
    refine .inl ⟨old, hOld, ?_⟩
    by_cases hKey : old.1 = key a
    · simp [hKey]
    · have hKey' : ¬ key a = old.1 := fun h => hKey h.symm
      simp [hKey, hKey']
  · rename_i hNew
    simp only [List.any_eq_true, beq_iff_eq, not_exists, not_and] at hNew
    rcases List.mem_append.mp h with hOld | hLast
    · have hKey : (key a == g.1) = false := by
        rw [beq_eq_false_iff_ne]
        exact fun hSame => hNew g hOld hSame.symm
      exact .inl ⟨g, hOld, by simp [hKey]⟩
    · exact .inr ⟨List.mem_singleton.mp hLast, hNew⟩

/-- The keys after one more entry are the old ones, and its own at the end if that is new. -/
theorem keys_addByKey (groups : List (κ × List α)) (a : α) :
    (addByKey key groups a).map Prod.fst =
      if key a ∈ groups.map Prod.fst then groups.map Prod.fst
      else groups.map Prod.fst ++ [key a] := by
  have hAny : (groups.any fun g => g.1 == key a) = true ↔ key a ∈ groups.map Prod.fst := by
    simp only [List.any_eq_true, beq_iff_eq, List.mem_map]
  unfold addByKey
  by_cases hOld : key a ∈ groups.map Prod.fst
  · rw [if_pos (hAny.mpr hOld), if_pos hOld, List.map_map]
    apply List.map_congr_left
    intro g _
    simp only [Function.comp_apply]
    split <;> rfl
  · rw [if_neg (fun h => hOld (hAny.mp h)), if_neg hOld]
    simp

/-- Every key comes once. -/
theorem nodup_keys_groupByKey (entries : List α) :
    ((groupByKey key entries).map Prod.fst).Nodup := by
  unfold groupByKey
  induction entries using List.reverseRecOn with
  | nil => exact List.nodup_nil
  | append_singleton entries a ih =>
      rw [List.foldl_append, List.foldl_cons, List.foldl_nil, keys_addByKey]
      split
      · exact ih
      · rename_i hNew
        rw [← List.concat_eq_append]
        exact ih.concat hNew

/-- The keys are those of the entries. -/
theorem mem_keys_groupByKey_iff {entries : List α} {k : κ} :
    k ∈ (groupByKey key entries).map Prod.fst ↔ ∃ a ∈ entries, key a = k := by
  unfold groupByKey
  induction entries using List.reverseRecOn with
  | nil => simp
  | append_singleton entries a ih =>
      rw [List.foldl_append, List.foldl_cons, List.foldl_nil, keys_addByKey]
      simp only [List.mem_append, List.mem_singleton, or_and_right, exists_or, exists_eq_left]
      split
      · rename_i hOld
        rw [ih]
        refine ⟨.inl, fun h => h.elim id fun hSame => ?_⟩
        rw [← ih, ← hSame]
        exact hOld
      · rw [List.mem_append, ih, List.mem_singleton, eq_comm (a := k)]

/-- The group of a key holds the entries of the key, in their order. -/
theorem eq_filter_of_mem_groupByKey {entries : List α} {g : κ × List α}
    (h : g ∈ groupByKey key entries) : g.2 = entries.filter fun a => key a == g.1 := by
  induction entries using List.reverseRecOn generalizing g with
  | nil => cases h
  | append_singleton entries a ih =>
      have hStep : groupByKey key (entries ++ [a]) = addByKey key (groupByKey key entries) a := by
        simp [groupByKey, List.foldl_append]
      rw [hStep] at h
      rw [List.filter_append, List.filter_singleton]
      rcases mem_addByKey key h with ⟨old, hOld, rfl⟩ | ⟨rfl, hNew⟩
      · rw [← ih hOld, Bool.cond_eq_ite]
      · have hNone : entries.filter (fun b => key b == key a) = [] := by
          rw [List.filter_eq_nil_iff]
          intro b hb hKey
          have hMem := (mem_keys_groupByKey_iff key).mpr ⟨b, hb, eq_of_beq hKey⟩
          obtain ⟨old, hOld, hSame⟩ := List.mem_map.mp hMem
          exact hNew old hOld hSame
        simp [hNone]

/-- Entries of one key are together in a group. -/
theorem exists_mem_groupByKey {entries : List α} {a : α} (h : a ∈ entries) :
    ∃ g ∈ groupByKey key entries, g.1 = key a ∧ ∀ b ∈ entries, key b = key a → b ∈ g.2 := by
  obtain ⟨g, hg, hKey⟩ := List.mem_map.mp ((mem_keys_groupByKey_iff key).mpr ⟨a, h, rfl⟩)
  refine ⟨g, hg, hKey, fun b hb hSame => ?_⟩
  rw [eq_filter_of_mem_groupByKey key hg, List.mem_filter]
  exact ⟨hb, by simp [hKey, hSame]⟩

/-- What is found under a key are the entries of the key, and nothing if there are none. -/
theorem getD_lookup_groupByKey (entries : List α) (k : κ) :
    ((groupByKey key entries).lookup k).getD [] = entries.filter fun a => key a == k := by
  cases hLookup : (groupByKey key entries).lookup k with
  | some found =>
      obtain ⟨before, after, hSplit, _⟩ := List.lookup_eq_some_iff.mp hLookup
      have hMem : (k, found) ∈ groupByKey key entries := by simp [hSplit]
      exact eq_filter_of_mem_groupByKey key hMem
  | none =>
      symm
      rw [Option.getD_none, List.filter_eq_nil_iff]
      intro a ha hKey
      obtain ⟨g, hg, hSame⟩ :=
        List.mem_map.mp ((mem_keys_groupByKey_iff key).mpr ⟨a, ha, eq_of_beq hKey⟩)
      have hOther := List.lookup_eq_none_iff.mp hLookup g hg
      simp [hSame] at hOther

end Grouping

namespace Family

/-- The name and the types by which definitions are put into families. -/
def signature (f : Family) : String × List String := (f.name, f.types)

/-- All definitions of a family have its name and its types. -/
def Coherent (f : Family) : Prop :=
  ∀ d ∈ f.definitions, d.function.name = f.name ∧ d.function.parameterTypes = f.types

/-- All definitions of a family have its name and its types. -/
theorem Coherent.key {f : Family} (h : f.Coherent) {d : FunctionRef} (hd : d ∈ f.definitions) :
    d.key.name = f.name ∧ d.key.types = f.types := h d hd

theorem effective_mem (f : Family) : f.effective ∈ f.definitions := by
  unfold effective definitions
  cases h : f.rest.getLast? with
  | none => simp
  | some d => simpa using .inr (List.mem_of_getLast? h)

end Family

/-- What is known of the families of some definitions: they are coherent, hold no other definitions
and have different signatures. -/
structure FamiliesOf (refs : List FunctionRef) (families : List Family) : Prop where
  coherent : ∀ f ∈ families, f.Coherent
  known : ∀ f ∈ families, ∀ d ∈ f.definitions, d ∈ refs
  distinct : (families.map Family.signature).Nodup

theorem Family.holds_iff {f : Family} {r : FunctionRef} :
    f.holds r = true ↔ f.signature = (r.function.name, r.function.parameterTypes) := by
  simp [holds, signature]

theorem Family.holds_congr {f g : Family} (h : f.signature = g.signature) (r : FunctionRef) :
    f.holds r = g.holds r := by
  rw [Bool.eq_iff_iff, holds_iff, holds_iff, h]

/-- The step: one more definition goes behind the others of its family, or it founds a family. -/
theorem mem_addToFamilies {families : List Family} {r : FunctionRef} {g : Family}
    (h : g ∈ addToFamilies families r) :
    (∃ f ∈ families, g.signature = f.signature ∧
      g.definitions = f.definitions ++ if f.holds r then [r] else []) ∨
      (g = .ofRef r ∧ ∀ f ∈ families, f.holds r = false) := by
  unfold addToFamilies at h
  split at h
  · obtain ⟨f, hf, rfl⟩ := List.mem_map.mp h
    refine .inl ⟨f, hf, ?_⟩
    split
    · exact ⟨rfl, rfl⟩
    · exact ⟨rfl, (List.append_nil _).symm⟩
  · rename_i hNew
    simp only [List.any_eq_true, not_exists, not_and, Bool.not_eq_true] at hNew
    rcases List.mem_append.mp h with hOld | hLast
    · exact .inl ⟨g, hOld, rfl, by simp [hNew g hOld]⟩
    · exact .inr ⟨List.mem_singleton.mp hLast, hNew⟩

/-- The step: a function adds a signature unless there is one. -/
theorem signatures_addToFamilies (families : List Family) (r : FunctionRef) :
    (addToFamilies families r).map Family.signature =
      if (Family.ofRef r).signature ∈ families.map Family.signature then
        families.map Family.signature
      else families.map Family.signature ++ [(Family.ofRef r).signature] := by
  have hAny : (families.any fun f => f.holds r) = true ↔
      (Family.ofRef r).signature ∈ families.map Family.signature := by
    simp only [List.any_eq_true, Family.holds_iff, List.mem_map]
    rfl
  unfold addToFamilies
  by_cases hOld : (Family.ofRef r).signature ∈ families.map Family.signature
  · rw [if_pos (hAny.mpr hOld), if_pos hOld, List.map_map]
    apply List.map_congr_left
    intro f _
    simp only [Function.comp_apply]
    split <;> rfl
  · rw [if_neg (fun h => hOld (hAny.mp h)), if_neg hOld, List.map_append, List.map_singleton]

/-- The run: families have different signatures, every definition has a family, and a family lists the
definitions of its signature in the order in which they come. -/
theorem foldl_addToFamilies (refs : List FunctionRef) :
    ((refs.foldl addToFamilies []).map Family.signature).Nodup ∧
      (∀ r ∈ refs, (Family.ofRef r).signature ∈
        (refs.foldl addToFamilies []).map Family.signature) ∧
      ∀ f ∈ refs.foldl addToFamilies [], f.definitions = refs.filter f.holds := by
  induction refs using List.reverseRecOn with
  | nil => simp
  | append_singleton refs r ih =>
      obtain ⟨hDistinct, hFound, hListed⟩ := ih
      rw [List.foldl_append, List.foldl_cons, List.foldl_nil, signatures_addToFamilies]
      refine ⟨?_, ?_, fun g hg => ?_⟩
      · split
        · exact hDistinct
        · rename_i hNew
          rw [← List.concat_eq_append]
          exact hDistinct.concat hNew
      · intro d hd
        rcases List.mem_append.mp hd with hd | hd
        · split
          · exact hFound d hd
          · exact List.mem_append_left _ (hFound d hd)
        · rw [List.mem_singleton.mp hd]
          split
          · assumption
          · simp
      · rw [List.filter_append, List.filter_singleton, Bool.cond_eq_ite]
        rcases mem_addToFamilies hg with ⟨f, hf, hSignature, hDefinitions⟩ | ⟨rfl, hNew⟩
        · rw [hDefinitions, hListed f hf, Family.holds_congr hSignature r]
          congr 1
          exact List.filter_congr fun d _ => (Family.holds_congr hSignature d).symm
        · have hNone : refs.filter (Family.ofRef r).holds = [] := by
            rw [List.filter_eq_nil_iff]
            intro d hd hSame
            obtain ⟨f, hf, hSignature⟩ := List.mem_map.mp (hFound d hd)
            rw [Family.holds_iff] at hSame
            have hHolds := Family.holds_iff.mpr (hSignature.trans hSame.symm)
            rw [hNew f hf] at hHolds
            cases hHolds
          rw [hNone, if_pos (Family.holds_iff.mpr rfl)]
          rfl

/-- A family along a chain lists all definitions of its name and types, from the most basic contract to
the most derived. -/
theorem definitions_eq_filter {chain : List Contract} {f : Family} (hf : f ∈ familiesOf chain) :
    f.definitions = (ordinaryFunctions chain).filter f.holds :=
  (foldl_addToFamilies (ordinaryFunctions chain)).2.2 f hf

/-- The families along a chain. -/
theorem familiesOf_spec (chain : List Contract) :
    FamiliesOf (ordinaryFunctions chain) (familiesOf chain) := by
  refine ⟨fun f hf d hd => ?_, fun f hf d hd => ?_, (foldl_addToFamilies _).1⟩
  · rw [definitions_eq_filter hf, List.mem_filter, Family.holds_iff] at hd
    exact ⟨(Prod.mk.inj hd.2).1.symm, (Prod.mk.inj hd.2).2.symm⟩
  · rw [definitions_eq_filter hf] at hd
    exact List.mem_of_mem_filter hd

/-- The ordinary functions along a chain are those that its contracts declare. -/
theorem mem_ordinaryFunctions_iff {chain : List Contract} {d : FunctionRef} :
    d ∈ ordinaryFunctions chain ↔
      d.contract ∈ chain ∧ d.function ∈ d.contract.functions ∧ d.function.kind = .function := by
  obtain ⟨c, f⟩ := d
  simp only [ordinaryFunctions, List.mem_flatMap, List.mem_map, List.mem_filter, beq_iff_eq,
    FunctionRef.mk.injEq]
  constructor
  · rintro ⟨c', hc, f', ⟨hf, hKind⟩, rfl, rfl⟩
    exact ⟨hc, hf, hKind⟩
  · rintro ⟨hc, hf, hKind⟩
    exact ⟨c, hc, f, ⟨hf, hKind⟩, rfl, rfl⟩

/-- The families of a group are families along the chain and have the name of the group. -/
theorem mem_groupsOf {chain : List Contract} {g : String × List Family} {f : Family}
    (hg : g ∈ groupsOf chain) (hf : f ∈ g.2) : f ∈ familiesOf chain ∧ f.name = g.1 := by
  rw [eq_filter_of_mem_groupByKey Family.name hg, List.mem_filter, List.mem_filter] at hf
  exact ⟨hf.1.1, eq_of_beq hf.2⟩

/-- A contract has groups if it has a chain, and then those of the chain. -/
theorem signatureGroups_eq_ok_iff {i : Index} {c : Contract} {groups : List (String × List Family)} :
    i.signatureGroups c = .ok groups ↔
      ∃ chain, i.linearize c.name = .ok chain ∧ groupsOf chain = groups :=
  Outcome.bind_pure_eq_ok_iff

/-- Families of one name stand in one group. -/
theorem group_unique {chain : List Contract} {g₁ g₂ : String × List Family} {f₁ f₂ : Family}
    (hg₁ : g₁ ∈ groupsOf chain) (hg₂ : g₂ ∈ groupsOf chain) (hf₁ : f₁ ∈ g₁.2) (hf₂ : f₂ ∈ g₂.2)
    (hName : f₁.name = f₂.name) : g₁ = g₂ := by
  refine List.inj_on_of_nodup_map (nodup_keys_groupByKey _ _) hg₁ hg₂ ?_
  rw [← (mem_groupsOf hg₁ hf₁).2, ← (mem_groupsOf hg₂ hf₂).2, hName]

/-- The definition of a family that counts has the name and the types of the family. -/
theorem effective_key {chain : List Contract} {f : Family} (hf : f ∈ familiesOf chain) :
    f.effective.key.name = f.name ∧ f.effective.key.types = f.types :=
  ((familiesOf_spec chain).coherent f hf).key f.effective_mem

/-- A family along a chain is determined by its name and its types. -/
theorem family_unique {chain : List Contract} {f g : Family} (hf : f ∈ familiesOf chain)
    (hg : g ∈ familiesOf chain) (hName : f.name = g.name) (hTypes : f.types = g.types) : f = g :=
  List.inj_on_of_nodup_map (familiesOf_spec chain).distinct hf hg
    (by rw [Family.signature, Family.signature, hName, hTypes])

end SolNorm
