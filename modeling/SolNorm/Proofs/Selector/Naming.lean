import SolNorm.Proofs.Outcome
import SolNorm.Selector.Collision
import SolNorm.Tree.Scanner

/-!
The search for a new name. A name is extended by the spelled types and by a number, in characters of
which words are made. Different numbers give different candidates, so as long as their signatures have
different selectors, everything that is taken refuses one candidate at most, and the search is over
when as many have been tried.
-/

namespace SolNorm

/-- A text that can be read as one word. -/
def Tree.IsWord (text : String) : Prop :=
  ∃ first rest, text.toList = first :: rest ∧ isWordStart first = true ∧
    ∀ c ∈ rest, isWordRest c = true

theorem Tree.IsWord.extend {text longer : String} {added : List Char} (h : IsWord text)
    (hLonger : longer.toList = text.toList ++ added) (hAdded : ∀ c ∈ added, isWordRest c = true) :
    IsWord longer := by
  obtain ⟨first, rest, hText, hFirst, hRest⟩ := h
  refine ⟨first, rest ++ added, by rw [hLonger, hText, List.cons_append], hFirst, fun c hc => ?_⟩
  rcases List.mem_append.mp hc with hc | hc
  · exact hRest c hc
  · exact hAdded c hc

namespace Renaming

section Spelling

theorem isWordRest_of_isDigit {c : Char} (h : c.isDigit = true) : Tree.isWordRest c = true := by
  simp [Tree.isWordRest, h]

theorem isWordRest_identifierChar (c : Char) : Tree.isWordRest (identifierChar c) = true := by
  unfold identifierChar
  split
  · rename_i h
    simp only [Char.isAlphanum, Bool.or_eq_true, beq_iff_eq] at h
    rcases h with (hAlpha | hDigit) | rfl
    · simp [Tree.isWordRest, Tree.isWordStart, hAlpha]
    · exact isWordRest_of_isDigit hDigit
    · decide
  · decide

/-- A type is spelled in characters of words, whatever stands in its brackets. -/
theorem isWordRest_of_mem_spellType (cs : List Char) :
    ∀ c ∈ spellType cs, Tree.isWordRest c = true := by
  have hDynamic : "_dyn".toList.all Tree.isWordRest = true := by decide
  fun_induction spellType cs with
  | case1 => simp
  | case2 rest size ih =>
      intro c hc
      rcases List.mem_append.mp hc with hc | hc
      · split at hc
        · exact List.all_eq_true.mp hDynamic c hc
        · rcases List.mem_cons.mp hc with rfl | hc
          · decide
          · obtain ⟨d, _, rfl⟩ := List.mem_map.mp hc
            exact isWordRest_identifierChar d
      · exact ih c hc
  | case3 c rest _ ih => exact List.forall_mem_cons.mpr ⟨isWordRest_identifierChar c, ih⟩

/-- What a number adds to a name. -/
theorem toList_candidate (base : String) (n : Nat) :
    (candidate base n).toList =
      base.toList ++ if n = 0 then [] else '_' :: (n + 1).repr.toList := by
  unfold candidate
  split
  · exact (List.append_nil _).symm
  · show (base ++ "_" ++ (n + 1).repr).toList = _
    simp [String.toList_append]

/-- A candidate is the name with some characters of words behind it. -/
theorem exists_toList_candidate (name : String) (types : List String) (n : Nat) :
    ∃ added, (candidate (extend name types) n).toList = name.toList ++ added ∧
      ∀ c ∈ added, Tree.isWordRest c = true := by
  refine ⟨_, by rw [toList_candidate, extend, String.toList_append, List.append_assoc], ?_⟩
  intro c hc
  rcases List.mem_append.mp hc with hc | hc
  · simp only [String.toList_join, List.flatMap_map, List.mem_flatMap, String.toList_append,
      List.mem_append, String.toList_ofList] at hc
    obtain ⟨type, _, hc | hc⟩ := hc
    · rw [List.mem_singleton.mp hc]
      decide
    · exact isWordRest_of_mem_spellType _ c hc
  · split at hc
    · cases hc
    · rcases List.mem_cons.mp hc with rfl | hc
      · decide
      · rw [Nat.toList_repr] at hc
        exact isWordRest_of_isDigit (Nat.isDigit_of_mem_toDigits (by decide) (by decide) hc)

theorem candidate_injective (base : String) : Function.Injective (candidate base) := by
  intro n m hSame
  have hText := congrArg String.toList hSame
  rw [toList_candidate, toList_candidate, List.append_cancel_left_eq] at hText
  split at hText <;> split at hText
  · omega
  · cases hText
  · cases hText
  · rw [List.cons.injEq, String.toList_inj] at hText
    have hNumber := Nat.repr_injective hText.2
    omega

end Spelling

section Search

variable {refused : Nat → Bool} {steps start n : Nat}

/-- The run of a search: it ends at the first number that is not refused, if that is among those that
are tried. -/
theorem firstFree?_eq_some_iff :
    firstFree? refused steps start = some n ↔
      start ≤ n ∧ n < start + steps ∧ refused n = false ∧
        ∀ m, start ≤ m → m < n → refused m = true := by
  induction steps generalizing start with
  | zero =>
      simp only [firstFree?, reduceCtorEq, false_iff]
      omega
  | succ steps ih =>
      rw [firstFree?]
      cases hStart : refused start with
      | false =>
          simp only [Option.some.injEq]
          constructor
          · rintro rfl
            exact ⟨Nat.le_refl _, by omega, hStart, fun m hFrom hTo => by omega⟩
          · rintro ⟨hFrom, _, _, hBefore⟩
            by_contra hNe
            have hRefused := hBefore start (Nat.le_refl _) (by omega)
            simp [hStart] at hRefused
      | true =>
          simp only
          rw [ih]
          constructor
          · rintro ⟨hFrom, hTo, hFree, hBefore⟩
            refine ⟨by omega, by omega, hFree, fun m hm hLess => ?_⟩
            rcases Nat.eq_or_lt_of_le hm with rfl | hm
            · exact hStart
            · exact hBefore m hm hLess
          · rintro ⟨hFrom, hTo, hFree, hBefore⟩
            have hNe : start ≠ n := by
              rintro rfl
              simp [hStart] at hFree
            exact ⟨by omega, by omega, hFree, fun m hm => hBefore m (by omega)⟩

/-- When the search is given up, every number that was tried was refused. -/
theorem firstFree?_eq_none {m : Nat} (h : firstFree? refused steps start = none) (hFrom : start ≤ m)
    (hTo : m < start + steps) : refused m = true := by
  induction steps generalizing start with
  | zero => omega
  | succ steps ih =>
      rw [firstFree?] at h
      split at h
      · rename_i hRefused
        rcases Nat.eq_or_lt_of_le hFrom with rfl | hLt
        · exact hRefused
        · exact ih h hLt (by omega)
      · cases h

end Search

section Fresh

variable {Tag : Type} [DecidableEq Tag] {names : List String} {tags : List Tag} {tag : String → Tag}
  {base : String} {n : Nat}

/-- A fresh name is a candidate, and neither it nor its tag is taken. -/
theorem freshName?_eq_some {name : String} (h : freshName? names tags tag base = some name) :
    name ∉ names ∧ tag name ∉ tags ∧ ∃ n, name = candidate base n := by
  obtain ⟨n, hFree, rfl⟩ := Option.map_eq_some_iff.mp h
  obtain ⟨_, _, hNot, _⟩ := firstFree?_eq_some_iff.mp hFree
  simp only [Bool.or_eq_false_iff, List.contains_eq_mem, decide_eq_false_iff_not] at hNot
  exact ⟨hNot.1, hNot.2, n, rfl⟩

/-- The first candidate that is not taken and whose tag is not taken either. -/
structure IsFirstFree (names : List String) (tags : List Tag) (tag : String → Tag) (base : String)
    (n : Nat) : Prop where
  name_free : candidate base n ∉ names
  tag_free : tag (candidate base n) ∉ tags
  first : ∀ m < n, candidate base m ∈ names ∨ tag (candidate base m) ∈ tags

/-- The search finds the first free candidate, if its bound allows. -/
theorem IsFirstFree.freshName? (h : IsFirstFree names tags tag base n)
    (hBound : n < 2147483648 + names.length + tags.length) :
    freshName? names tags tag base = some (candidate base n) := by
  have hFound : firstFree? (fun n => names.contains (candidate base n) ||
      tags.contains (tag (candidate base n))) (2147483648 + names.length + tags.length) 0 = some n := by
    refine firstFree?_eq_some_iff.mpr ⟨Nat.zero_le n, by omega, ?_, fun m _ hm => ?_⟩
    · simpa using ⟨h.name_free, h.tag_free⟩
    · simpa using h.first m hm
  rw [Renaming.freshName?, hFound, Option.map_some]

/-- Every name and every tag that is taken refuses one candidate at most, so not all candidates up to
their number are refused. -/
theorem exists_free (tag : String → Tag) (hTags : Set.InjOn (fun n => tag (candidate base n))
      (Set.Iic (names.toFinset.card + tags.toFinset.card))) :
    ∃ n ≤ names.toFinset.card + tags.toFinset.card,
      candidate base n ∉ names ∧ tag (candidate base n) ∉ tags := by
  by_contra hNone
  push Not at hNone
  let tried := Finset.Iic (names.toFinset.card + tags.toFinset.card)
  have hNames : (tried.filter fun n => candidate base n ∈ names).card ≤ names.toFinset.card := by
    apply Finset.card_le_card_of_injOn (candidate base)
    · intro n hn
      simpa using (Finset.mem_filter.mp hn).2
    · exact (candidate_injective base).injOn
  have hHeld : (tried.filter fun n => tag (candidate base n) ∈ tags).card ≤ tags.toFinset.card := by
    apply Finset.card_le_card_of_injOn (fun n => tag (candidate base n))
    · intro n hn
      simpa using (Finset.mem_filter.mp hn).2
    · exact hTags.mono fun n hn => by simpa [tried] using (Finset.mem_filter.mp hn).1
  have hAll : tried ⊆ (tried.filter fun n => candidate base n ∈ names) ∪
      tried.filter fun n => tag (candidate base n) ∈ tags := by
    intro n hn
    simp only [Finset.mem_union, Finset.mem_filter, hn, true_and]
    exact or_iff_not_imp_left.mpr (hNone n (by simpa [tried] using hn))
  have hCount := (Finset.card_le_card hAll).trans (Finset.card_union_le _ _)
  simp only [tried, Nat.card_Iic] at hCount hNames hHeld
  omega

/-- Everything that is taken refuses one candidate at most, so there is a free one among the first.
-/
theorem exists_isFirstFree (tag : String → Tag)
    (hTags : Set.InjOn (fun n => tag (candidate base n))
      (Set.Iic (names.toFinset.card + tags.toFinset.card))) :
    ∃ n ≤ names.toFinset.card + tags.toFinset.card, IsFirstFree names tags tag base n := by
  obtain ⟨m, hm, hFree⟩ := exists_free tag hTags
  have hSome : ∃ n, candidate base n ∉ names ∧ tag (candidate base n) ∉ tags := ⟨m, hFree⟩
  refine ⟨Nat.find hSome, (Nat.find_min' hSome hFree).trans hm, (Nat.find_spec hSome).1,
    (Nat.find_spec hSome).2, fun k hk => ?_⟩
  have hRefused := Nat.find_min hSome hk
  rw [not_and_or, not_not, not_not] at hRefused
  exact hRefused

end Fresh

end Renaming

namespace Collision

open Renaming

/-- The texts that are hashed for the candidates up to a number. -/
def candidateSignatures (i : Index) (name : String) (types : List String) (bound : Nat) : Set String :=
  {text | ∃ n ≤ bound,
    text = signatureText (candidate (extend name types) n) (types.map (outsideType i))}

/-- Where the signatures of candidates have different hashes, they have different selectors. -/
theorem injOn_outsideSelector {hash : String → Selector} {i : Index} {name : String}
    {types : List String} {bound : Nat}
    (h : Set.InjOn hash (candidateSignatures i name types bound)) :
    Set.InjOn (fun n => outsideSelector hash i (candidate (extend name types) n) types)
      (Set.Iic bound) := by
  intro n hn m hm hSame
  have hText := h ⟨n, hn, rfl⟩ ⟨m, hm, rfl⟩ hSame
  simp only [signatureText, String.append_assoc, String.append_left_inj] at hText
  exact candidate_injective _ hText

/-- The search for a new name ends, as long as the signatures of different candidates have different
selectors. No more candidates are refused than there are names and selectors to avoid; the number of the
candidate is how often the search has gone on. What is found is the first candidate that is free, and a
word that starts with the name. -/
theorem exists_usable_name {hash : String → Selector} {i : Index} {name : String} {types : List String}
    {names : List String} {selectors : List Selector} (hName : Tree.IsWord name)
    (hHash : Set.InjOn hash
      (candidateSignatures i name types (names.toFinset.card + selectors.toFinset.card))) :
    ∃ n ≤ names.toFinset.card + selectors.toFinset.card,
      IsFirstFree names selectors (fun x => outsideSelector hash i x types) (extend name types) n ∧
      freshName? names selectors (fun x => outsideSelector hash i x types) (extend name types) =
        some (candidate (extend name types) n) ∧
      Tree.IsWord (candidate (extend name types) n) ∧
      name.toList <+: (candidate (extend name types) n).toList := by
  obtain ⟨n, hBound, hFirst⟩ := exists_isFirstFree (fun x => outsideSelector hash i x types)
    (injOn_outsideSelector hHash)
  obtain ⟨added, hText, hAdded⟩ := exists_toList_candidate name types n
  have hNames := names.toFinset_card_le
  have hSelectors := selectors.toFinset_card_le
  exact ⟨n, hBound, hFirst, hFirst.freshName? (by omega), hName.extend hText hAdded,
    added, hText.symm⟩

/-- A hash that reads a text as a number in base 31. -/
def positional (text : String) : Selector :=
  (text.toList.foldl (fun n (c : Char) => 31 * n + c.toNat) 0).toUInt32

/-- The extended name is taken, and the selector of the second candidate is. -/
theorem refusedTwice_usable :
    Tree.IsWord "foo" ∧
      Set.InjOn positional (candidateSignatures default "foo" ["uint256[]"] 2) ∧
      freshName? ["foo_uint256_dyn"] [positional "foo_uint256_dyn_2(uint256)"]
        (fun x => outsideSelector positional default x ["uint256[]"]) (extend "foo" ["uint256[]"]) =
        some "foo_uint256_dyn_3" ∧
      Tree.IsWord "foo_uint256_dyn_3" ∧ "foo".toList <+: "foo_uint256_dyn_3".toList := by
  have hName : Tree.IsWord "foo" :=
    ⟨'f', ['o', 'o'], by decide, by decide, by simp [show Tree.isWordRest 'o' = true by decide]⟩
  have hBase : extend "foo" ["uint256[]"] = "foo_uint256_dyn" := by cbv
  have hTypes : ["uint256[]"].map (outsideType default) = ["uint256"] := by cbv
  have hHash : Set.InjOn positional (candidateSignatures default "foo" ["uint256[]"] 2) := by
    rintro _ ⟨n, hn, rfl⟩ _ ⟨m, hm, rfl⟩ hSame
    rw [hBase, hTypes] at hSame ⊢
    interval_cases n <;> interval_cases m <;> revert hSame <;> decide +kernel
  obtain ⟨n, hBound, hFirst, hFresh, hWord, hStart⟩ :=
    @exists_usable_name positional default "foo" ["uint256[]"] ["foo_uint256_dyn"]
      [positional "foo_uint256_dyn_2(uint256)"] hName hHash
  have hThird : candidate (extend "foo" ["uint256[]"]) n = "foo_uint256_dyn_3" := by
    have hFree := hFirst.name_free
    have hSelector := hFirst.tag_free
    rw [hBase] at hFree hSelector ⊢
    rw [outsideSelector, hTypes] at hSelector
    change n ≤ 2 at hBound
    interval_cases n
    · exact absurd (List.mem_singleton_self _) hFree
    · exact absurd (List.mem_singleton_self _) hSelector
    · rfl
  rw [hThird] at hFresh hWord hStart
  exact ⟨hName, hHash, hFresh, hWord, hStart⟩

end Collision

end SolNorm
