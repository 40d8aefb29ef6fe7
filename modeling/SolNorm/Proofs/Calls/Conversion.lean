import SolNorm.Index.Resolution
import SolNorm.Proofs.Linearization.Soundness

/-!
Which values can be passed without an explicit conversion. Integers can be passed as wider ones,
contracts as their bases and as addresses. The order of a contract's ancestors holds those of its
bases, so that steps from base to base add up to one; and as long as the types of the language are not
used as names of contracts, steps of different kinds add up as well and the types form a preorder.
-/

namespace SolNorm

open Outline

theorem toList_of_after? {start text : String} {rest : List Char} (h : after? start text = some rest) :
    text.toList = start.toList ++ rest := by
  unfold after? at h
  split at h
  · rename_i hStart
    obtain ⟨tail, hTail⟩ := List.isPrefixOf_iff_prefix.mp hStart
    rw [Option.some.injEq, ← hTail, ← String.length_toList, List.drop_left] at h
    rw [← hTail, h]
  · cases h

/-- A number has no dot. -/
theorem Text.not_mem_of_word32? {cs : List Char} {n : Nat} (h : word32? cs = some n) : '.' ∉ cs := by
  unfold word32? at h
  simp only [Option.ite_none_right_eq_some, Bool.and_eq_true, isDecimal, List.all_eq_true] at h
  have hDigits := h.1.1.2
  intro hDot
  have hDigit : ('.').isDigit = true := by
    apply hDigits
    split
    · rename_i hPlus
      cases cs with
      | nil => cases hDot
      | cons first rest =>
          simp only [List.head?_cons, beq_iff_eq, Option.some.injEq] at hPlus
          subst hPlus
          simpa using hDot
    · exact hDot
  revert hDigit
  decide

/-- Nothing stands before a dot in the name of an integer type. -/
theorem lastSegment_of_integerWidth? {type : String} {width : Bool × Nat}
    (h : integerWidth? type = some width) : lastSegment type = type := by
  have hDot : '.' ∉ type.toList := by
    unfold integerWidth? at h
    split at h
    · rename_i digits hUnsigned
      obtain ⟨bits, hBits, _⟩ := Option.map_eq_some_iff.mp h
      rw [toList_of_after? hUnsigned, List.mem_append, not_or]
      exact ⟨by decide, Text.not_mem_of_word32? hBits⟩
    · rename_i digits hSigned
      obtain ⟨bits, hBits, _⟩ := Option.map_eq_some_iff.mp h
      rw [toList_of_after? hSigned, List.mem_append, not_or]
      exact ⟨by decide, Text.not_mem_of_word32? hBits⟩
    · cases h
  have hAll : ∀ c ∈ type.toList.reverse, (c != '.') = true := by
    intro c hc
    rw [bne_iff_ne]
    rintro rfl
    exact hDot (List.mem_reverse.mp hc)
  rw [lastSegment, List.takeWhile_eq_self_iff.mpr hAll, List.reverse_reverse, String.ofList_toList]

namespace Index

/-- The ways in which a value of one type can be passed where another is asked for. -/
inductive Converts (i : Index) : String → String → Prop where
  | same (type : String) : Converts i type type
  /-- An integer becomes one of no fewer bits, with a sign if it has one. -/
  | wider {a b : String} {signed : Bool} {bits bits' : Nat} (ha : integerWidth? a = some (signed, bits))
      (hb : integerWidth? b = some (signed, bits')) (hBits : bits ≤ bits') : Converts i a b
  /-- A contract becomes one of its ancestors. -/
  | base {a : String} {chain : List Contract} {d : Contract} (hChain : i.linearize a = .ok chain)
      (hd : d ∈ chain) : Converts i a d.name
  | address {a : String} {c : Contract} (hFound : i.contract? a = some c) : Converts i a "address"

/-- No contract has the name of a type of the language to which others are converted. -/
def PlainTypes (i : Index) : Prop :=
  ∀ c ∈ i.contracts, c.name ≠ "address" ∧ integerWidth? c.name = none

section

variable {i : Index} {a b c : String}

/-- A contract does not go by the name of an integer type. -/
theorem PlainTypes.not_integer (h : i.PlainTypes) {d : Contract} (hFound : i.contract? a = some d) :
    integerWidth? a = none := by
  cases hWidth : integerWidth? a with
  | none => rfl
  | some width =>
      have hName : d.name = a := (name_of_contract? hFound).trans (lastSegment_of_integerWidth? hWidth)
      rw [← hWidth, ← hName]
      exact (h d (mem_contracts_of_contract? hFound)).2

theorem PlainTypes.contract?_address (h : i.PlainTypes) : i.contract? "address" = none := by
  cases hFound : i.contract? "address" with
  | none => rfl
  | some d =>
      have hName : d.name = "address" := (name_of_contract? hFound).trans (by decide)
      exact absurd hName (h d (mem_contracts_of_contract? hFound)).1

/-- A contract inherits from those in the order of its ancestors. -/
theorem inherits_iff : i.inherits a b = true ↔
    ∃ chain, i.linearize a = .ok chain ∧ ∃ d ∈ chain, d.name = b := by
  unfold inherits
  cases i.linearize a <;> simp

/-- Only a value of the very type fits exactly. -/
theorem conversion_typed_eq_exact_iff : i.conversion (.typed a) b = .exact ↔ a = b := by
  unfold conversion conversionOfTyped
  constructor
  · intro h
    by_contra hNe
    simp only [beq_iff_eq, hNe, if_false] at h
    split at h <;> split at h <;> cases h
  · rintro rfl
    simp

/-- What can be passed is of the same type or takes one of the steps. -/
theorem converts_of_conversion (h : i.conversion (.typed a) b ≠ .none) : i.Converts a b := by
  unfold conversion conversionOfTyped at h
  dsimp only at h
  by_cases hSame : a = b
  · exact hSame ▸ .same a
  · rw [if_neg (by simpa using hSame)] at h
    split at h
    · rename_i signed bits signed' bits' ha hb
      by_cases hWider : (signed == signed' && decide (bits ≤ bits')) = true
      · simp only [Bool.and_eq_true, beq_iff_eq, decide_eq_true_eq] at hWider
        exact .wider ha (hWider.1 ▸ hb) hWider.2
      · simp [hWider] at h
    · by_cases hContract : ((i.contract? a).isSome && (b == "address" || i.inherits a b)) = true
      · simp only [Bool.and_eq_true, Bool.or_eq_true, beq_iff_eq] at hContract
        obtain ⟨d, hFound⟩ := Option.isSome_iff_exists.mp hContract.1
        rcases hContract.2 with rfl | hInherits
        · exact .address hFound
        · obtain ⟨chain, hChain, e, he, rfl⟩ := inherits_iff.mp hInherits
          exact .base hChain he
      · simp [hContract] at h

/-- A contract is converted as a contract, as it has not the name of an integer type. -/
theorem PlainTypes.conversion_of_contract (h : i.PlainTypes) {d : Contract}
    (hFound : i.contract? a = some d) (hNe : a ≠ b) :
    i.conversion (.typed a) b =
      if b == "address" || i.inherits a b then .implicit else .none := by
  simp [conversion, conversionOfTyped, hNe, h.not_integer hFound, hFound]

/-- Every step is allowed, unless a contract takes the name of a type of the language. -/
theorem PlainTypes.conversion_of_converts (h : i.PlainTypes) (hConverts : i.Converts a b) :
    i.conversion (.typed a) b ≠ .none := by
  by_cases hSame : a = b
  · rw [conversion_typed_eq_exact_iff.mpr hSame]
    decide
  · cases hConverts with
    | same => exact absurd rfl hSame
    | wider ha hb hBits => simp [conversion, conversionOfTyped, hSame, ha, hb, hBits]
    | base hChain hd =>
        obtain ⟨c, _, hFound, _⟩ := linearize_eq_append hChain
        have hInherits := inherits_iff.mpr ⟨_, hChain, _, hd, rfl⟩
        simp [h.conversion_of_contract hFound hSame, hInherits]
    | address hFound => simp [h.conversion_of_contract hFound hSame]

/-- Two steps add up to one. -/
theorem PlainTypes.converts_trans (h : i.PlainTypes) (hFirst : i.Converts a b)
    (hSecond : i.Converts b c) : i.Converts a c := by
  cases hFirst with
  | same => exact hSecond
  | wider ha hb hBits =>
      -- What an integer becomes is an integer, which no contract is.
      have hNone : i.contract? b = none := by
        cases hFound : i.contract? b with
        | none => rfl
        | some d => simp [h.not_integer hFound] at hb
      cases hSecond with
      | same => exact .wider ha hb hBits
      | wider hb' hc hBits' =>
          rw [hb, Option.some.injEq, Prod.mk.injEq] at hb'
          obtain ⟨rfl, rfl⟩ := hb'
          exact .wider ha hc (hBits.trans hBits')
      | base hChain =>
          obtain ⟨d, _, hFound, _⟩ := linearize_eq_append hChain
          simp [hNone] at hFound
      | address hFound => simp [hNone] at hFound
  | @base chain d hChain hd =>
      have hSelf := contract?_of_mem_linearize hChain hd
      cases hSecond with
      | same => exact .base hChain hd
      | wider hb => simp [h.not_integer hSelf] at hb
      | @base other e hOther he =>
          -- The order of the base is kept in the order of the contract.
          obtain ⟨own, hOwn, hSub⟩ := linearize_of_mem hChain hd
          obtain rfl : own ++ [d] = other := Except.ok.inj (hOwn.symm.trans hOther)
          exact .base hChain (hSub.subset he)
      | address =>
          obtain ⟨first, _, hFound, _⟩ := linearize_eq_append hChain
          exact .address hFound
  | address hFound =>
      cases hSecond with
      | same => exact .address hFound
      | wider hb =>
          have hNone : integerWidth? "address" = none := by decide
          simp [hNone] at hb
      | base hChain =>
          obtain ⟨d, _, hAddress, _⟩ := linearize_eq_append hChain
          simp [h.contract?_address] at hAddress
      | address => exact .address hFound

/-- Passing values without an explicit conversion is a preorder on types as long as no contract has the
name of a type of the language. A type fits itself exactly and nothing else does; it fits another one
exactly when it converts in one of the four ways; and what fits by two steps fits by one. -/
theorem conversion_preorder (h : i.PlainTypes) :
    (∀ a b, i.conversion (.typed a) b = .exact ↔ a = b) ∧
      (∀ a b, i.conversion (.typed a) b ≠ .none ↔ i.Converts a b) ∧
      ∀ a b c, i.conversion (.typed a) b ≠ .none → i.conversion (.typed b) c ≠ .none →
        i.conversion (.typed a) c ≠ .none := by
  have hIff (a b : String) : i.conversion (.typed a) b ≠ .none ↔ i.Converts a b :=
    ⟨converts_of_conversion, h.conversion_of_converts⟩
  refine ⟨fun a b => conversion_typed_eq_exact_iff, hIff, fun a b c hFirst hSecond => ?_⟩
  exact (hIff a c).mpr (h.converts_trans ((hIff a b).mp hFirst) ((hIff b c).mp hSecond))

end

/-- A contract whose name is given with a dot becomes a base, and the base becomes an address. Nothing
leads from a base to its sibling, or from an integer with a sign to one without. -/
theorem doubled_converts :
    doubled.PlainTypes ∧ doubled.conversion (.typed "Main.D") "B" = .implicit ∧
      doubled.conversion (.typed "B") "address" = .implicit ∧
      doubled.conversion (.typed "Main.D") "address" ≠ .none ∧
      doubled.conversion (.typed "B") "C" = .none ∧ ¬ doubled.Converts "B" "C" ∧
      doubled.conversion (.typed "int8") "uint16" = .none ∧ ¬ doubled.Converts "int8" "uint16" := by
  have hPlain : doubled.PlainTypes := by
    unfold PlainTypes
    decide +kernel
  have hBase : doubled.conversion (.typed "Main.D") "B" = .implicit := by decide +kernel
  have hAddress : doubled.conversion (.typed "B") "address" = .implicit := by decide +kernel
  have hSibling : doubled.conversion (.typed "B") "C" = .none := by decide +kernel
  have hSign : doubled.conversion (.typed "int8") "uint16" = .none := by decide +kernel
  obtain ⟨_, hIff, hTrans⟩ := conversion_preorder hPlain
  refine ⟨hPlain, hBase, hAddress, hTrans "Main.D" "B" "address" ?_ ?_, hSibling,
    fun h => (hIff _ _).mpr h hSibling, hSign, fun h => (hIff _ _).mpr h hSign⟩
  · simp [hBase]
  · simp [hAddress]

end Index

end SolNorm
