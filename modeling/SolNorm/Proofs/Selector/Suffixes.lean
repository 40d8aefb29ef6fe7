import Mathlib.Data.List.Infix
import Mathlib.Data.List.TakeWhile
import Mathlib.Data.String.Basic
import SolNorm.Selector.Erasure

/-!
Array types and their suffixes. Sizes are taken out of the spelling of a type, from its last bracket
to its first. Fixed suffixes stay in their order and the others go, so whether types agree without
their sizes can be read off their spellings.
-/

namespace SolNorm

open Outline

namespace Erasure

/-- Characters in brackets. -/
def bracketed (inner : List Char) : List Char := '[' :: (inner ++ [']'])

/-- No brackets can be taken away at the end. -/
def IsBare (cs : List Char) : Prop := cs.getLast? ≠ some ']' ∨ '[' ∉ cs

/-- Texts are passed like bytes. -/
def eraseText (cs : List Char) : List Char :=
  if cs = "string".toList then "bytes".toList else cs

/-- The characters of a type without sizes. -/
def eraseChars (cs : List Char) : List Char := (eraseBackwards cs.reverse).reverse

theorem eraseSizes_eq (type : String) :
    eraseSizes type = String.ofList (eraseChars type.toList) :=
  rfl

section Characters

variable {cs inner : List Char}

/-- Every spelling is made of bare characters and brackets behind them. -/
theorem bracketed_induction {motive : List Char → Prop} (bare : ∀ cs, IsBare cs → motive cs)
    (brackets : ∀ cs inner, '[' ∉ inner → motive cs → motive (cs ++ bracketed inner))
    (cs : List Char) : motive cs := by
  induction hLength : cs.length using Nat.strong_induction_on generalizing cs with
  | _ n ih =>
      by_cases hBare : IsBare cs
      · exact bare cs hBare
      · rw [IsBare, not_or, not_not, not_not] at hBare
        obtain ⟨front, rfl⟩ := List.getLast?_eq_some_iff.mp hBare.1
        have hOpen : '[' ∈ front.reverse := by simpa using hBare.2
        -- The first opening bracket from behind is the last one.
        obtain ⟨inner, before, hFront, hInner⟩ := List.eq_append_cons_of_mem hOpen
        obtain rfl : front = before.reverse ++ '[' :: inner.reverse := by
          rw [← List.reverse_reverse front, hFront]
          simp
        have hShorter : before.reverse.length < n := by
          rw [← hLength]
          simp
        have hBefore := ih _ hShorter before.reverse rfl
        simpa [bracketed] using brackets _ inner.reverse (by simpa using hInner) hBefore

theorem append_bracketed (cs inner : List Char) :
    cs ++ bracketed inner = cs ++ '[' :: inner ++ [']'] := by
  simp [bracketed]

theorem skip_of_notMem {a : Char} (h : a ∉ cs) : ∀ c ∈ cs, (c != a) = true := by
  intro c hc
  rw [bne_iff_ne]
  rintro rfl
  exact h hc

/-- The last bracket is dropped with what follows it. -/
theorem dropFromLast?_append {rest : List Char} (h : '[' ∉ rest) :
    dropFromLast? '[' (cs ++ '[' :: rest) = some cs := by
  have hReverse : (cs ++ '[' :: rest).reverse = rest.reverse ++ '[' :: cs.reverse := by simp
  rw [dropFromLast?, hReverse, List.dropWhile_append_of_pos (skip_of_notMem (by simpa using h))]
  simp

theorem dropFromLast?_of_notMem (h : '[' ∉ cs) : dropFromLast? '[' cs = none := by
  have hAll : cs.reverse.dropWhile (· != '[') = [] :=
    List.dropWhile_eq_nil_iff.mpr (skip_of_notMem (by simpa using h))
  rw [dropFromLast?, hAll]

/-- An array suffix does not change the element. -/
theorem elementChars_append (h : '[' ∉ inner) :
    elementChars (cs ++ bracketed inner) = elementChars cs := by
  have hLast : (cs ++ bracketed inner).getLast? = some ']' := by
    rw [append_bracketed, List.getLast?_concat]
  have hCut : dropFromLast? '[' (cs ++ bracketed inner) = some cs :=
    dropFromLast?_append (by simpa using h)
  rw [elementChars, hLast]
  simp only [beq_self_eq_true, if_true]
  split
  · rename_i rest hRest
    rw [hCut, Option.some.injEq] at hRest
    rw [hRest]
  · rename_i hNone
    rw [hCut] at hNone
    cases hNone

theorem elementChars_of_isBare (h : IsBare cs) : elementChars cs = cs := by
  rw [elementChars]
  split
  · rename_i hLast
    have hNone := dropFromLast?_of_notMem (h.resolve_left (not_not.mpr (eq_of_beq hLast)))
    split
    · rename_i rest hRest
      rw [hNone] at hRest
      cases hRest
    · rfl
  · rfl

/-- A suffix without a length is erased, and any other is kept. -/
theorem eraseChars_append (h : '[' ∉ inner) :
    eraseChars (cs ++ bracketed inner) =
      eraseChars cs ++ if inner = [] then [] else bracketed inner := by
  have hReverse : (cs ++ bracketed inner).reverse = ']' :: (inner.reverse ++ '[' :: cs.reverse) := by
    simp [bracketed]
  have hSkip : ∀ c ∈ inner.reverse, (c != '[') = true := skip_of_notMem (by simpa using h)
  rw [eraseChars, hReverse, eraseBackwards, if_pos ⟨rfl, by simp⟩,
    List.takeWhile_append_of_pos hSkip, List.dropWhile_append_of_pos hSkip]
  by_cases hEmpty : inner = [] <;> simp [hEmpty, eraseChars, bracketed]

theorem eraseChars_of_isBare (h : IsBare cs) : eraseChars cs = eraseText cs := by
  cases hReverse : cs.reverse with
  | nil =>
      rw [List.reverse_eq_nil_iff.mp hReverse]
      simp [eraseChars, eraseBackwards, eraseText]
  | cons c rest =>
      have hNot : ¬ (c = ']' ∧ '[' ∈ rest) := by
        rintro ⟨rfl, hOpen⟩
        rw [← List.reverse_reverse cs, hReverse] at h
        simp [IsBare, hOpen] at h
      have hText : String.ofList cs = "string" ↔ cs = "string".toList := String.ofList_eq
      rw [eraseChars, hReverse, eraseBackwards, if_neg hNot, ← hReverse, List.reverse_reverse,
        eraseText]
      simp only [hText]
      split <;> simp

/-- Without sizes there is nothing to take away. -/
theorem eraseChars_eraseChars (cs : List Char) : eraseChars (eraseChars cs) = eraseChars cs := by
  induction cs using bracketed_induction with
  | bare cs hBare =>
      rw [eraseChars_of_isBare hBare, eraseText]
      split
      · exact eraseChars_of_isBare (.inl (by decide))
      · rename_i hOther
        rw [eraseChars_of_isBare hBare, eraseText, if_neg hOther]
  | brackets cs inner hInner ih =>
      rw [eraseChars_append hInner]
      split
      · rw [List.append_nil, ih]
      · rename_i hSome
        rw [eraseChars_append hInner, if_neg hSome, ih]

/-- The test looks for a suffix without a length anywhere. -/
theorem hasEmptyBrackets_iff : hasEmptyBrackets cs = true ↔ bracketed [] <:+: cs := by
  fun_induction hasEmptyBrackets cs with
  | case1 rest => simp [bracketed, List.infix_cons_iff]
  | case2 c rest hOther ih =>
      rw [ih, List.infix_cons_iff]
      refine (or_iff_right ?_).symm
      rintro ⟨tail, hTail⟩
      cases hTail
      exact hOther tail rfl rfl
  | case3 => simp [bracketed]

/-- A type without parts of unknown size is passed as it is. -/
theorem eraseChars_of_fixed (hBrackets : hasEmptyBrackets cs = false)
    (hElement : elementChars cs ≠ "string".toList) : eraseChars cs = cs := by
  rw [Bool.eq_false_iff, Ne, hasEmptyBrackets_iff] at hBrackets
  induction cs using bracketed_induction with
  | bare cs hBare =>
      rw [elementChars_of_isBare hBare] at hElement
      rw [eraseChars_of_isBare hBare, eraseText, if_neg hElement]
  | brackets cs inner hInner ih =>
      rw [elementChars_append hInner] at hElement
      have hSome : inner ≠ [] := by
        rintro rfl
        exact hBrackets (List.suffix_append _ _).isInfix
      have hFront : ¬ bracketed [] <:+: cs := fun hIn =>
        hBrackets (hIn.trans (List.prefix_append _ _).isInfix)
      rw [eraseChars_append hInner, if_neg hSome, ih hFront hElement]

end Characters

/-- What stands before the first closing bracket is known. -/
theorem append_close_inj {left right left' right' : List Char} (h : ']' ∉ left) (h' : ']' ∉ left')
    (hSame : left ++ ']' :: right = left' ++ ']' :: right') : left = left' ∧ right = right' := by
  have hTake := congrArg (List.takeWhile (· != ']')) hSame
  rw [List.takeWhile_append_of_pos (skip_of_notMem h),
    List.takeWhile_append_of_pos (skip_of_notMem h')] at hTake
  obtain rfl : left = left' := by simpa using hTake
  exact ⟨rfl, by simpa using hSame⟩

/-- The length of an array as it is written: not empty, and without brackets. -/
structure Length where
  text : String
  nonempty : text ≠ ""
  plain : '[' ∉ text.toList ∧ ']' ∉ text.toList
  deriving DecidableEq

/-- What makes an array type of a type. -/
inductive Suffix where
  | unsized
  | sized (length : Length)
  deriving DecidableEq

namespace Suffix

def spelled : Suffix → String
  | unsized => "[]"
  | sized length => "[" ++ length.text ++ "]"

def isSized : Suffix → Bool
  | unsized => false
  | sized _ => true

/-- What stands in the brackets of a suffix. -/
def inner : Suffix → List Char
  | unsized => []
  | sized length => length.text.toList

theorem toList_spelled (s : Suffix) : s.spelled.toList = bracketed s.inner := by
  cases s <;> simp [spelled, bracketed, inner]

theorem open_notMem_inner (s : Suffix) : '[' ∉ s.inner := by
  cases s with
  | unsized => exact List.not_mem_nil
  | sized length => exact length.plain.1

theorem close_notMem_inner (s : Suffix) : ']' ∉ s.inner := by
  cases s with
  | unsized => exact List.not_mem_nil
  | sized length => exact length.plain.2

theorem inner_eq_nil_iff {s : Suffix} : s.inner = [] ↔ s.isSized = false := by
  cases s with
  | unsized => simp [inner, isSized]
  | sized length => simpa [inner, isSized] using length.nonempty

theorem inner_injective : Function.Injective inner := by
  intro s t h
  cases s with
  | unsized =>
      have hOther : t.isSized = false := inner_eq_nil_iff.mp h.symm
      cases t with
      | unsized => rfl
      | sized => cases hOther
  | sized length =>
      cases t with
      | unsized => exact absurd h (by simpa [inner] using length.nonempty)
      | sized other =>
          obtain ⟨text, _, _⟩ := length
          obtain ⟨text', _, _⟩ := other
          obtain rfl : text = text' := String.toList_injective h
          rfl

/-- Suffixes are known by their characters. -/
theorem flatMap_injective :
    Function.Injective fun suffixes : List Suffix => suffixes.flatMap fun s => bracketed s.inner := by
  intro left right h
  induction left generalizing right with
  | nil =>
      cases right with
      | nil => rfl
      | cons => simp [bracketed] at h
  | cons s left ih =>
      cases right with
      | nil => simp [bracketed] at h
      | cons t right =>
          simp only [List.flatMap_cons, bracketed, List.cons_append, List.append_assoc,
            List.nil_append, List.cons.injEq, true_and] at h
          obtain ⟨hInner, hRest⟩ := append_close_inj s.close_notMem_inner t.close_notMem_inner h
          rw [inner_injective hInner, ih hRest]

end Suffix

/-- A type in its parts: what it is an array of, and the suffixes that make it one. -/
structure ArrayType where
  element : String
  suffixes : List Suffix
  bare : element.toList.getLast? ≠ some ']'
  deriving DecidableEq

namespace ArrayType

/-- The spelling of a type: its element, then its suffixes. -/
def spelled (t : ArrayType) : String :=
  t.element ++ String.join (t.suffixes.map Suffix.spelled)

/-- The type without suffixes that fix no length, and with bytes for a text. -/
def erased (t : ArrayType) : ArrayType where
  element := if t.element = "string" then "bytes" else t.element
  suffixes := t.suffixes.filter Suffix.isSized
  bare := by
    split
    · decide
    · exact t.bare

/-- A type is spelled by its element and its suffixes in their order. -/
theorem toList_spelled (t : ArrayType) :
    t.spelled.toList = t.element.toList ++ t.suffixes.flatMap fun s => bracketed s.inner := by
  simp [spelled, List.flatMap_map, Suffix.toList_spelled]

/-- The run over the suffixes, from the last to the first: none of them belongs to the element. -/
theorem elementType_spelled (t : ArrayType) : elementType t.spelled = t.element := by
  have hChars : elementChars t.spelled.toList = t.element.toList := by
    rw [toList_spelled]
    induction t.suffixes using List.reverseRecOn with
    | nil =>
        rw [List.flatMap_nil, List.append_nil]
        exact elementChars_of_isBare (.inl t.bare)
    | append_singleton suffixes s ih =>
        rw [List.flatMap_append, List.flatMap_singleton, ← List.append_assoc,
          elementChars_append s.open_notMem_inner, ih]
  rw [elementType, hChars, String.ofList_toList]

/-- Of elements only texts are erased. -/
theorem eraseText_element (t : ArrayType) : eraseText t.element.toList = t.erased.element.toList := by
  have hText : t.element.toList = "string".toList ↔ t.element = "string" := String.toList_inj
  simp only [eraseText, hText, erased]
  split <;> rfl

/-- The run over the suffixes, from the last to the first: those that fix a length stay. -/
theorem eraseSizes_spelled (t : ArrayType) : eraseSizes t.spelled = t.erased.spelled := by
  have hChars : eraseChars t.spelled.toList = t.erased.spelled.toList := by
    rw [toList_spelled, toList_spelled, ← eraseText_element, erased]
    induction t.suffixes using List.reverseRecOn with
    | nil =>
        rw [List.filter_nil, List.flatMap_nil, List.append_nil, List.append_nil]
        exact eraseChars_of_isBare (.inl t.bare)
    | append_singleton suffixes s ih =>
        rw [List.flatMap_append, List.flatMap_singleton, ← List.append_assoc,
          eraseChars_append s.open_notMem_inner, ih, List.filter_append, List.flatMap_append,
          List.append_assoc]
        by_cases hSized : s.isSized = true
        · have hSome : s.inner ≠ [] := by
            rw [Ne, Suffix.inner_eq_nil_iff, hSized]
            decide
          simp [hSized, hSome]
        · have hNone : s.inner = [] := Suffix.inner_eq_nil_iff.mpr (by simpa using hSized)
          simp [hSized, hNone]
  rw [eraseSizes_eq, hChars, String.ofList_toList]

/-- Only texts and suffixes that fix no length are touched. -/
theorem erased_eq_self_iff {t : ArrayType} :
    t.erased = t ↔ t.element ≠ "string" ∧ ∀ s ∈ t.suffixes, s.isSized = true := by
  obtain ⟨element, suffixes, _⟩ := t
  rw [erased, mk.injEq, List.filter_eq_self]
  refine and_congr_left fun _ => ?_
  split
  · rename_i hText
    obtain rfl : element = "string" := hText
    exact iff_of_false (by decide) fun hOther => hOther rfl
  · rename_i hOther
    exact iff_of_true rfl hOther

/-- Types are known by their spellings. -/
theorem spelled_injective : Function.Injective spelled := by
  intro t u h
  have hElement : t.element = u.element := by
    rw [← elementType_spelled t, h, elementType_spelled]
  have hChars := congrArg String.toList h
  rw [toList_spelled, toList_spelled, hElement, List.append_cancel_left_eq] at hChars
  obtain ⟨element, suffixes, _⟩ := t
  obtain ⟨element', suffixes', _⟩ := u
  obtain rfl : element = element' := hElement
  obtain rfl : suffixes = suffixes' := Suffix.flatMap_injective hChars
  rfl

end ArrayType

theorem eraseSizes_eraseSizes (type : String) : eraseSizes (eraseSizes type) = eraseSizes type := by
  rw [eraseSizes_eq, eraseSizes_eq, String.toList_ofList, eraseChars_eraseChars]

/-- Where nothing is dynamic, nothing is erased. -/
theorem eraseSizes_of_isDynamic_false {type : String} (h : isDynamic type = false) :
    eraseSizes type = type := by
  obtain ⟨hBrackets, hElement⟩ := Bool.or_eq_false_iff.mp h
  have hText : elementChars type.toList ≠ "string".toList := by
    intro hText
    rw [elementType, hText] at hElement
    revert hElement
    decide
  rw [eraseSizes_eq, eraseChars_of_fixed hBrackets hText, String.ofList_toList]

/-- The element of a spelled type is what stands before its suffixes. Erasing sizes takes away the
suffixes that fix no length and makes bytes of a text, and it changes nothing just where there is
neither; so two types become the same exactly when they agree in what is left. Of whatever spelling,
sizes are erased once for all, and one without parts of unknown size stays as it is. -/
theorem eraseSizes_structural (t u : ArrayType) (type : String) :
    elementType t.spelled = t.element ∧ eraseSizes t.spelled = t.erased.spelled ∧
      (eraseSizes t.spelled = t.spelled ↔
        t.element ≠ "string" ∧ ∀ s ∈ t.suffixes, s.isSized = true) ∧
      (eraseSizes t.spelled = eraseSizes u.spelled ↔ t.erased = u.erased) ∧
      eraseSizes (eraseSizes type) = eraseSizes type ∧
      (isDynamic type = false → eraseSizes type = type) := by
  refine ⟨t.elementType_spelled, t.eraseSizes_spelled, ?_, ?_, eraseSizes_eraseSizes type,
    eraseSizes_of_isDynamic_false⟩
  · rw [t.eraseSizes_spelled, ArrayType.spelled_injective.eq_iff, ArrayType.erased_eq_self_iff]
  · rw [t.eraseSizes_spelled, u.eraseSizes_spelled, ArrayType.spelled_injective.eq_iff]

/-- Texts in an array of fixed length between two of any length. -/
def texts : ArrayType :=
  ⟨"string", [.unsized, .sized ⟨"3", by decide, by decide⟩, .unsized], by decide⟩

theorem texts_erased :
    texts.spelled = "string[][3][]" ∧ elementType "string[][3][]" = "string" ∧
      eraseSizes "string[][3][]" = "bytes[3]" ∧ isDynamic "uint256[2]" = false ∧
      eraseSizes "uint256[2]" = "uint256[2]" := by
  have hSpelled : texts.spelled = "string[][3][]" := by decide
  have hFixed : isDynamic "uint256[2]" = false := by cbv
  obtain ⟨hElement, hErased, _, _, _, hSame⟩ := eraseSizes_structural texts texts "uint256[2]"
  rw [hSpelled] at hElement hErased
  exact ⟨hSpelled, hElement, hErased.trans (by decide), hFixed, hSame hFixed⟩

end Erasure

end SolNorm
