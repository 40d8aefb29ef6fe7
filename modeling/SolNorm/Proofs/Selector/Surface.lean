import SolNorm.Proofs.Selector.Separation

/-!
What a contract looks like from outside once functions have been told apart. A new name is chosen
clear of the contracts that inherit the contract in which it is chosen, but it is given to functions
of that contract's ancestors too, which other contracts inherit as well. So two functions of a
contract have the same signature in the end exactly when the new name of one captures the name that
the other keeps.
-/

namespace SolNorm

open Outline

namespace Renaming

/-- A name does not get a parenthesis by being extended and numbered. -/
theorem not_mem_candidate {name : String} (h : '(' ∉ name.toList) (types : List String) (n : Nat) :
    '(' ∉ (candidate (extend name types) n).toList := by
  obtain ⟨added, hText, hAdded⟩ := exists_toList_candidate name types n
  rw [hText, List.mem_append, not_or]
  refine ⟨h, fun hMem => ?_⟩
  have hWord := hAdded '(' hMem
  revert hWord
  decide

end Renaming

/-- A name without parentheses is what stands before the first parenthesis of its signature. -/
theorem takeWhile_signatureText {name : String} (h : '(' ∉ name.toList) (types : List String) :
    (signatureText name types).toList.takeWhile (· != '(') = name.toList := by
  have hOpen : "(".toList = ['('] := rfl
  have hName : ∀ c ∈ name.toList, (c != '(') = true := by
    intro c hc
    rw [bne_iff_ne]
    exact fun hOther => h (hOther ▸ hc)
  simp only [signatureText, String.toList_append, List.append_assoc, hOpen]
  rw [List.takeWhile_append_of_pos hName]
  simp

/-- Signatures of names without parentheses are the same exactly when the names are and the types
are spelled alike. -/
theorem signatureText_eq_iff {a b : String} {s t : List String} (ha : '(' ∉ a.toList)
    (hb : '(' ∉ b.toList) :
    signatureText a s = signatureText b t ↔ a = b ∧ ",".intercalate s = ",".intercalate t := by
  constructor
  · intro hText
    have hName : a = b := by
      rw [← String.toList_inj, ← takeWhile_signatureText ha s, hText, takeWhile_signatureText hb t]
    subst hName
    simpa [signatureText, String.append_assoc] using hText
  · rintro ⟨rfl, hTypes⟩
    rw [signatureText, signatureText, hTypes]

namespace Collision

variable {hash : String → Selector} {i : Index}

/-- The signature by which a family is called from outside in the end. -/
def finalSignature (i : Index) (r : Renames) (f : Family) : String :=
  signatureText (r.nameOf f.effective) (f.types.map (outsideType i))

/-- No name of a function holds a parenthesis, as for every source that can be read. -/
def PlainNames (i : Index) : Prop := ∀ c ∈ i.contracts, ∀ f ∈ c.functions, '(' ∉ f.name.toList

/-- Families have plain names where all functions have. -/
theorem plain_of_mem_familiesOf {name : String} {chain : List Contract} {f : Family}
    (hPlain : PlainNames i) (hChain : i.linearize name = .ok chain) (hf : f ∈ familiesOf chain) :
    '(' ∉ f.name.toList := by
  have hKnown := (familiesOf_spec chain).known f hf _ f.effective_mem
  obtain ⟨hContract, hFunction, _⟩ := mem_ordinaryFunctions_iff.mp hKnown
  have hListed := Index.mem_contracts_of_contract?
    (Index.contract?_of_mem_linearize hChain hContract)
  rw [← (effective_key hf).1]
  exact hPlain _ hListed _ hFunction

/-- New names are as plain as the names that they replace. -/
theorem Sound.plain_nameOf {r : Renames} {chain : List Contract} {f : Family} (h : Sound i r)
    (hf : f ∈ familiesOf chain) (hPlain : '(' ∉ f.name.toList) :
    '(' ∉ (r.nameOf f.effective).toList := by
  obtain ⟨hName, _⟩ := effective_key hf
  unfold Renames.nameOf
  cases hFind : r.find? f.effective.key with
  | none =>
      rw [← hName] at hPlain
      exact hPlain
  | some name =>
      obtain ⟨n, rfl⟩ := (h.chosen hFind).extended
      rw [hName]
      exact Renaming.not_mem_candidate hPlain _ n

/-- A name that captures another in a contract was chosen in a contract that this one does not
inherit. -/
theorem Sound.clear_of_captures {r : Renames} {c : Contract} {chain : List Contract} {f g : Family}
    (h : Sound i r) (hc : c ∈ i.contracts) (hChain : i.linearize c.name = .ok chain)
    (hg : g ∈ familiesOf chain) (hCaptures : r.Captures f.effective g.effective) :
    ∃ p ∈ i.contracts, p.name ∉ chain.map Contract.name ∧ ClearOf i p g.name := by
  obtain ⟨p, hp, hClear⟩ := (h.chosen hCaptures.1).clear
  obtain ⟨hName, _⟩ := effective_key hg
  refine ⟨p, hp, fun hInherits => ?_, hName ▸ hClear⟩
  have hKnown := (familiesOf_spec chain).known g hg _ g.effective_mem
  obtain ⟨hContract, hFunction, _⟩ := mem_ordinaryFunctions_iff.mp hKnown
  exact hClear c hc chain hChain hInherits _ hContract _ hFunction rfl

/-- Two families that a contract shows to the outside have the same signature in the end exactly when
their types are passed alike and the new name of one captures the name that the other keeps. The name
was then chosen in a contract that the contract does not inherit. -/
theorem finalSignature_eq_iff {m : Marking} {c : Contract} (hPlain : PlainNames i)
    (hRun : separateAll hash i = .ok m) (hc : c ∈ i.contracts) :
    ∃ chain, i.linearize c.name = .ok chain ∧ i.signatureGroups c = .ok (groupsOf chain) ∧
      ∀ f ∈ (groupsOf chain).flatMap Prod.snd, ∀ g ∈ (groupsOf chain).flatMap Prod.snd, f ≠ g →
        (finalSignature i m.renames f = finalSignature i m.renames g ↔
          ",".intercalate (f.types.map (outsideType i)) =
              ",".intercalate (g.types.map (outsideType i)) ∧
            (m.renames.Captures f.effective g.effective ∨
              m.renames.Captures g.effective f.effective)) ∧
        (m.renames.Captures f.effective g.effective →
          ∃ p ∈ i.contracts, p.name ∉ chain.map Contract.name ∧ ClearOf i p g.name) := by
  obtain ⟨hSound, hApart⟩ := separateAll_eq_ok hRun
  obtain ⟨groups, hGroups, hApart⟩ := hApart c hc
  obtain ⟨chain, hChain, rfl⟩ := signatureGroups_eq_ok_iff.mp hGroups
  refine ⟨chain, hChain, hGroups, fun f hf g hg hNe => ?_⟩
  obtain ⟨fGroup, hfGroup, hfMem⟩ := List.mem_flatMap.mp hf
  obtain ⟨gGroup, hgGroup, hgMem⟩ := List.mem_flatMap.mp hg
  obtain ⟨hfChain, _⟩ := mem_groupsOf hfGroup hfMem
  obtain ⟨hgChain, _⟩ := mem_groupsOf hgGroup hgMem
  refine ⟨?_, hSound.clear_of_captures hc hChain hgChain⟩
  have hText : finalSignature i m.renames f = finalSignature i m.renames g ↔
      m.renames.nameOf f.effective = m.renames.nameOf g.effective ∧
        ",".intercalate (f.types.map (outsideType i)) =
          ",".intercalate (g.types.map (outsideType i)) :=
    signatureText_eq_iff
      (hSound.plain_nameOf hfChain (plain_of_mem_familiesOf hPlain hChain hfChain))
      (hSound.plain_nameOf hgChain (plain_of_mem_familiesOf hPlain hChain hgChain))
  obtain ⟨hfName, hfTypes⟩ := effective_key hfChain
  obtain ⟨hgName, hgTypes⟩ := effective_key hgChain
  rw [hText, and_comm]
  refine and_congr_right fun hTypes => hSound.nameOf_eq_iff ?_ fun hName => ?_
  · rw [hfName, hgName, hfTypes, hgTypes]
    exact fun hBoth => hNe (family_unique hfChain hgChain hBoth.1 hBoth.2)
  · -- Families of one name whose types are passed alike have one selector.
    have hName : f.name = g.name := hfName.symm.trans (hName.trans hgName)
    have hSelector :
        outsideSelector hash i f.name f.types = outsideSelector hash i g.name g.types := by
      rw [outsideSelector, outsideSelector, signatureText, signatureText, hName, hTypes]
    have hGroup := group_unique hfGroup hgGroup hfMem hgMem hName
    exact hApart.renamed hfGroup hfMem (hGroup ▸ hgMem) hNe hSelector

/-- A name that is chosen in `B` for a function of `A` is that of a function of `C`, which inherits
`A` as well. -/
def siblings : Index :=
  { (default : Index) with
    unit := ⟨[contractOf "A" [] [overload "foo" "uint256[]" 10],
      contractOf "B" ["A"] [overload "foo" "uint256" 20],
      contractOf "C" ["A"] [overload "foo_uint256_dyn" "uint256" 30]], default⟩ }

/-- `C` shows the same signature twice in the end. The hash is the length of a text. -/
theorem siblings_captured :
    ∃ m c chain, ∃ f ∈ (groupsOf chain).flatMap Prod.snd, ∃ g ∈ (groupsOf chain).flatMap Prod.snd,
      separateAll (fun text => text.length.toUInt32) siblings = .ok m ∧
      siblings.contract? "C" = some c ∧ siblings.linearize c.name = .ok chain ∧
      f.name = "foo" ∧ g.name = "foo_uint256_dyn" ∧
      finalSignature siblings m.renames f = "foo_uint256_dyn(uint256)" ∧
      finalSignature siblings m.renames g = "foo_uint256_dyn(uint256)" ∧
      (m.renames.Captures f.effective g.effective ∨
        m.renames.Captures g.effective f.effective) := by
  have hRun : (separateAll (fun text => text.length.toUInt32) siblings).map Marking.renames =
      .ok [⟨⟨"A", "foo", ["uint256[]"]⟩, "foo_uint256_dyn", ⟨10, 13⟩⟩] := by
    cbv
  have hShown : (do
      let c ← siblings.contract "C"
      let groups ← siblings.signatureGroups c
      return (groups.flatMap Prod.snd).map fun f : Family => (f.name, finalSignature siblings
        [⟨⟨"A", "foo", ["uint256[]"]⟩, "foo_uint256_dyn", ⟨10, 13⟩⟩] f)) =
      .ok [("foo", "foo_uint256_dyn(uint256)"),
        ("foo_uint256_dyn", "foo_uint256_dyn(uint256)")] := by
    cbv
  have hPlain : PlainNames siblings := by
    unfold PlainNames
    decide +kernel
  obtain ⟨m, hOk, hRenames⟩ := Outcome.map_eq_ok_iff.mp hRun
  obtain ⟨c, hFound, hShown⟩ := Outcome.bind_eq_ok_iff.mp hShown
  obtain ⟨groups, hGroups, hShown⟩ := Outcome.bind_eq_ok_iff.mp hShown
  rw [Index.contract_eq_ok_iff] at hFound
  rw [Outcome.pure_eq_ok_iff, ← hRenames] at hShown
  obtain ⟨chain, hChain, hSame, hAll⟩ :=
    finalSignature_eq_iff hPlain hOk (Index.mem_contracts_of_contract? hFound)
  rw [hGroups, Except.ok.injEq] at hSame
  subst hSame
  obtain ⟨f, rest, hList, hf, hRest⟩ := List.map_eq_cons_iff.mp hShown
  obtain ⟨g, rest', rfl, hg, _⟩ := List.map_eq_cons_iff.mp hRest
  rw [Prod.mk.injEq] at hf hg
  have hMemF : f ∈ (groupsOf chain).flatMap Prod.snd := by simp [hList]
  have hMemG : g ∈ (groupsOf chain).flatMap Prod.snd := by simp [hList]
  have hNe : f ≠ g := by
    rintro rfl
    have hNames := hf.1.symm.trans hg.1
    revert hNames
    decide
  refine ⟨m, c, chain, f, hMemF, g, hMemG, hOk, hFound, hChain, hf.1, hg.1, hf.2, hg.2, ?_⟩
  exact ((hAll f hMemF g hMemG hNe).1.mp (hf.2.trans hg.2.symm)).2

end Collision

end SolNorm
