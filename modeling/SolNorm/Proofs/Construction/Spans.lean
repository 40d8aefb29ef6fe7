import SolNorm.Proofs.Construction.Rewrites
import SolNorm.Proofs.Outline.Spans
import SolNorm.Proofs.Slips

/-!
The bytes that a merge of constructors touches. Every edit belongs to one contract, and edits of
different contracts cannot meet. In one contract the edits are of four sorts: arguments of bases are
taken away before the body, and in the body the header of the constructor is written anew, calls are
put in behind a brace, or modifiers are taken away. The last never happens where a header is written.
-/

namespace SolNorm.Construction

open Outline

/-- A span lies in a contract and stops before the contract does. -/
def Inside (c : Contract) (s : Span) : Prop :=
  c.span.start ≤ s.start ∧ s.start ≤ s.stop ∧ s.stop < c.span.stop

/-- What lies in different contracts has no byte in common. -/
theorem disjoint_of_inside {c d : Contract} {s t : Span} (h : c.span.Disjoint d.span)
    (hs : Inside c s) (ht : Inside d t) : s.Disjoint t := by
  unfold Inside at hs ht
  unfold Span.Disjoint Span.Before at *
  omega

/-- The arguments that a contract gives to converted bases where it names them. -/
def argumentSpans (converted : List String) (c : Contract) : List Span :=
  (c.bases.filter fun b => converted.contains (lastSegment b.name)).filterMap Invocation.argsSpan

/-- The converted bases that a contract names in the header of its constructor. -/
def modifierSpans (converted : List String) (c : Contract) : List Span :=
  (((c.constructor?.map Function.modifiers).getD []).filter fun m =>
    converted.contains (lastSegment m.name)).map Invocation.span

/-- What is taken away in a contract. -/
def removedSpans (converted replaced : List String) (c : Contract) : List Span :=
  argumentSpans converted c ++
    if converted.contains c.name || replaced.contains c.name then [] else modifierSpans converted c

/-- The place where the body of a function starts. -/
def bodyStart (f : Function) : Nat := (f.body.map fun b => b.span.start).getD 0

/-- The header of a function. -/
def headerSpan (f : Function) : Span := ⟨f.span.start, bodyStart f⟩

/-- Where the merged constructor of a contract is written. -/
def mergeSpans (c : Contract) : List Span :=
  match c.constructor? with
  | some f => [headerSpan f, .point (bodyStart f + 1)]
  | none => [.point (c.bodySpan.start + 1)]

section

variable {text : String} {c : Contract}

/-- The constructor of a contract has its body between the braces of the contract. -/
theorem body_of_constructor (h : c.SpansFit text) {f : Function} (hf : c.constructor? = some f) :
    ∃ b, f.body = some b ∧ f.SpansFit text ∧ b.span.Braced text ∧
      c.bodySpan.start < f.span.start ∧ f.span.start ≤ b.span.start ∧
      b.span.start + 1 < b.span.stop ∧ b.span.stop < c.span.stop := by
  have hMem : f ∈ c.functions := List.mem_of_find?_eq_some hf
  have hKind := List.find?_some hf
  obtain ⟨hFunction, hStart, hStop⟩ := h.functions f hMem
  obtain ⟨b, hBody⟩ := Option.isSome_iff_exists.mp (hFunction.hasBody (eq_of_beq hKind))
  obtain ⟨hBraced, hNested, _⟩ := hFunction.body b hBody
  have hInner := h.body.2
  have hBraces := hBraced.start_succ_lt
  simp only [Span.encloses, Bool.and_eq_true, decide_eq_true_eq] at hNested hInner
  exact ⟨b, hBody, hFunction, hBraced, hStart, hNested.1, hBraces, by omega⟩

theorem bodyStart_eq {f : Function} {b : Body} (h : f.body = some b) :
    bodyStart f = b.span.start := by
  simp [bodyStart, h]

/-- The arguments of bases stand before the body of the contract. -/
theorem argumentSpans_fit (h : c.SpansFit text) (converted : List String) {s : Span}
    (hs : s ∈ argumentSpans converted c) :
    Inside c s ∧ s.FitsIn text ∧ s.stop ≤ c.bodySpan.start := by
  obtain ⟨b, hb, hArgs⟩ := List.mem_filterMap.mp hs
  obtain ⟨hBase, hNested, hBefore⟩ := h.bases b (List.mem_of_mem_filter hb)
  obtain ⟨hFits, hIn, _⟩ := hBase.args s hArgs
  have hBody := h.body.2
  have hBraces := h.body.1.start_succ_lt
  have hForward := hFits.1
  simp only [Span.encloses, Bool.and_eq_true, decide_eq_true_eq] at hNested hIn hBody
  unfold Span.Before at hBefore
  refine ⟨⟨?_, hForward, ?_⟩, hFits, ?_⟩ <;> omega

theorem argumentSpans_before (h : c.SpansFit text) (converted : List String) :
    (argumentSpans converted c).Pairwise Span.Before := by
  have hBases := List.pairwise_map.mp h.basesBefore
  apply List.pairwise_filterMap.mpr
  apply (hBases.sublist List.filter_sublist).imp_of_mem
  intro a b ha hb hBefore s hs t ht
  obtain ⟨hFirst, _, _⟩ := h.bases a (List.mem_of_mem_filter ha)
  obtain ⟨hSecond, _, _⟩ := h.bases b (List.mem_of_mem_filter hb)
  -- The name of the second base comes before its arguments.
  obtain ⟨hFits, hIn, _⟩ := hFirst.args s hs
  obtain ⟨_, _, hName⟩ := hSecond.args t ht
  have hForward := hFits.1
  have hNested := hSecond.name
  simp only [Span.encloses, Bool.and_eq_true, decide_eq_true_eq] at hIn hNested
  unfold Span.Before at *
  omega

/-- The modifiers of a constructor stand inside the body of the contract. -/
theorem modifierSpans_fit (h : c.SpansFit text) (converted : List String) {s : Span}
    (hs : s ∈ modifierSpans converted c) :
    Inside c s ∧ s.FitsIn text ∧ c.bodySpan.start < s.start := by
  unfold modifierSpans at hs
  cases hf : c.constructor? with
  | none => simp [hf] at hs
  | some f =>
      simp only [hf, Option.map_some, Option.getD_some] at hs
      obtain ⟨m, hm, rfl⟩ := List.mem_map.mp hs
      obtain ⟨b, hBody, hFunction, _, hStart, _, _, hStop⟩ := body_of_constructor h hf
      obtain ⟨hModifier, hNested⟩ := hFunction.modifiers m (List.mem_of_mem_filter hm)
      obtain ⟨_, _, hBefore⟩ := hFunction.body b hBody
      have hOrder := hBefore m (List.mem_of_mem_filter hm)
      have hForward := hModifier.fits.1
      have hOuter := h.body.2
      simp only [Span.encloses, Bool.and_eq_true, decide_eq_true_eq] at hNested hOuter
      unfold Span.Before at hOrder
      refine ⟨⟨?_, hForward, ?_⟩, hModifier.fits, ?_⟩ <;> omega

theorem modifierSpans_before (h : c.SpansFit text) (converted : List String) :
    (modifierSpans converted c).Pairwise Span.Before := by
  unfold modifierSpans
  cases hf : c.constructor? with
  | none => simp
  | some f =>
      obtain ⟨b, hBody, hFunction, _⟩ := body_of_constructor h hf
      apply List.pairwise_map.mpr
      exact (List.pairwise_map.mp hFunction.modifiersBefore).sublist List.filter_sublist

/-- What a merge writes into a contract is inside its body. -/
theorem mergeSpans_fit (h : c.SpansFit text) {s : Span} (hs : s ∈ mergeSpans c) :
    Inside c s ∧ s.FitsIn text ∧ c.bodySpan.start < s.start := by
  have hOuter := h.body.2
  simp only [Span.encloses, Bool.and_eq_true, decide_eq_true_eq] at hOuter
  unfold mergeSpans at hs
  cases hf : c.constructor? with
  | none =>
      have hBraces := h.body.1.start_succ_lt
      simp only [hf, List.mem_singleton] at hs
      subst hs
      refine ⟨⟨?_, Nat.le_refl _, ?_⟩, h.body.1.fitsIn_point, ?_⟩ <;> unfold Span.point <;>
        dsimp only <;> omega
  | some f =>
      obtain ⟨b, hBody, hFunction, hBraced, hStart, hHeader, hBraces, hStop⟩ :=
        body_of_constructor h hf
      simp only [hf, headerSpan, bodyStart_eq hBody] at hs
      rcases List.mem_pair.mp hs with rfl | rfl
      · refine ⟨⟨?_, hHeader, ?_⟩,
          ⟨hHeader, hFunction.fits.2.1, hBraced.isBoundary_start⟩, hStart⟩ <;>
          dsimp only <;> omega
      · refine ⟨⟨?_, Nat.le_refl _, ?_⟩, hBraced.fitsIn_point, ?_⟩ <;> unfold Span.point <;>
          dsimp only <;> omega

theorem mergeSpans_before (h : c.SpansFit text) : (mergeSpans c).Pairwise Span.Before := by
  unfold mergeSpans
  cases hf : c.constructor? with
  | none => exact List.pairwise_singleton _ _
  | some f =>
      obtain ⟨b, hBody, _, _, _, hHeader, _⟩ := body_of_constructor h hf
      rw [List.pairwise_pair, headerSpan, bodyStart_eq hBody]
      exact ⟨Nat.lt_succ_of_le hHeader, Nat.le_succ _⟩

end

/-- Bytes that are touched, with the contract to which they belong. Those of one contract have
nothing in common. -/
def Separate (a b : Contract × Span) : Prop := a.1 = b.1 → a.2.Disjoint b.2

/-- The bytes that a merge touches: the headers of converted constructors, what is taken away, and
the places where constructors are written. -/
def touched (i : Index) (bases rewritten : List Contract) : List (Contract × Span) :=
  ((constructorsOf bases).map fun x => (x.1, headerSpan x.2)) ++
    (i.contracts.flatMap fun c =>
      (removedSpans (constructed bases) (constructed rewritten) c).map fun s => (c, s)) ++
    rewritten.flatMap fun c => (mergeSpans c).map fun s => (c, s)

/-- The bytes that a merge touches, in the order of its edits. -/
theorem map_snd_touched (i : Index) (bases rewritten : List Contract) :
    (touched i bases rewritten).map Prod.snd =
      ((constructorsOf bases).map fun x => headerSpan x.2) ++
        i.contracts.flatMap (removedSpans (constructed bases) (constructed rewritten)) ++
        rewritten.flatMap mergeSpans := by
  simp [touched, List.map_flatMap, Function.comp_def]

theorem mem_constructed {contracts : List Contract} {c : Contract} (hc : c ∈ contracts)
    {f : Function} (hf : c.constructor? = some f) : c.name ∈ constructed contracts := by
  apply List.mem_map_of_mem
  rw [List.mem_filter, hf]
  exact ⟨hc, rfl⟩

section

variable {i : Index} {bases rewritten : List Contract} {converted replaced : List String}

/-- Different contracts have no byte in common. -/
theorem disjoint_of_ne (hSpans : i.unit.SpansFit i.text) {c d : Contract} (hc : c ∈ i.contracts)
    (hd : d ∈ i.contracts) (hNe : c ≠ d) : c.span.Disjoint d.span := by
  have hBefore := List.pairwise_map.mp hSpans.contractsBefore
  have hDisjoint : i.contracts.Pairwise fun c d => c.span.Disjoint d.span := hBefore.imp Or.inl
  have : Std.Symm fun c d : Contract => c.span.Disjoint d.span := ⟨fun _ _ h => h.symm⟩
  exact hDisjoint.forall hc hd hNe

theorem nodup_contracts (hSpans : i.unit.SpansFit i.text) : i.contracts.Nodup := by
  apply (List.pairwise_map.mp hSpans.contractsBefore).imp
  rintro c d hBefore rfl
  exact Nat.lt_irrefl _ hBefore.1

/-- Bytes of different contracts have nothing in common, so only those of one contract count. -/
theorem disjoint_of_separate (hSpans : i.unit.SpansFit i.text) {owned : List (Contract × Span)}
    (hOwned : ∀ x ∈ owned, x.1 ∈ i.contracts ∧ Inside x.1 x.2) (h : owned.Pairwise Separate) :
    (owned.map Prod.snd).Pairwise Span.Disjoint := by
  apply List.pairwise_map.mpr
  apply h.imp_of_mem
  intro a b ha hb hSeparate
  by_cases hSame : a.1 = b.1
  · exact hSeparate hSame
  · obtain ⟨hContract, hIn⟩ := hOwned a ha
    obtain ⟨hContract', hIn'⟩ := hOwned b hb
    exact disjoint_of_inside (disjoint_of_ne hSpans hContract hContract' hSame) hIn hIn'

/-- What is removed are arguments of bases, and modifiers unless the constructor is rewritten as a
whole. -/
theorem mem_removedSpans {c : Contract} {s : Span} (h : s ∈ removedSpans converted replaced c) :
    s ∈ argumentSpans converted c ∨
      (s ∈ modifierSpans converted c ∧ c.name ∉ converted ∧ c.name ∉ replaced) := by
  unfold removedSpans at h
  rcases List.mem_append.mp h with hArgument | hModifier
  · exact .inl hArgument
  · split at hModifier
    · cases hModifier
    · rename_i hKept
      simp only [Bool.or_eq_true, List.contains_iff_mem, not_or] at hKept
      exact .inr ⟨hModifier, hKept⟩

/-- The arguments of bases stand before everything in the body. -/
theorem before_of_argument {text : String} {c : Contract} (h : c.SpansFit text) {s t : Span}
    (hs : s ∈ argumentSpans converted c) (ht : c.bodySpan.start < t.start) : s.Before t := by
  obtain ⟨⟨_, hForward, _⟩, _, hStop⟩ := argumentSpans_fit h converted hs
  exact ⟨by omega, by omega⟩

theorem removedSpans_fit {text : String} {c : Contract} (h : c.SpansFit text) {s : Span}
    (hs : s ∈ removedSpans converted replaced c) : Inside c s ∧ s.FitsIn text := by
  rcases mem_removedSpans hs with hArgument | ⟨hModifier, _⟩
  · obtain ⟨hIn, hFits, _⟩ := argumentSpans_fit h converted hArgument
    exact ⟨hIn, hFits⟩
  · obtain ⟨hIn, hFits, _⟩ := modifierSpans_fit h converted hModifier
    exact ⟨hIn, hFits⟩

/-- What is removed in a contract follows each other. -/
theorem removedSpans_before {text : String} {c : Contract} (h : c.SpansFit text)
    (converted replaced : List String) :
    (removedSpans converted replaced c).Pairwise Span.Before := by
  refine List.pairwise_append.mpr ⟨argumentSpans_before h converted, ?_, ?_⟩
  · split
    · exact .nil
    · exact modifierSpans_before h converted
  · intro s hs t ht
    split at ht
    · cases ht
    · exact before_of_argument h hs (modifierSpans_fit h converted ht).2.2

theorem headerSpan_mem {c : Contract} {f : Function} (h : c.constructor? = some f) :
    headerSpan f ∈ mergeSpans c := by
  simp [mergeSpans, h]

/-- Bytes of different contracts count as separate, so only those of one contract have to be. -/
theorem separate_flatMap {owners : List Contract} (hNodup : owners.Nodup)
    {spans : Contract → List Span} (h : ∀ c ∈ owners, (spans c).Pairwise Span.Before) :
    (owners.flatMap fun c => (spans c).map fun s => (c, s)).Pairwise Separate := by
  rw [List.pairwise_flatMap]
  constructor
  · intro c hc
    apply List.pairwise_map.mpr
    exact (h c hc).imp fun hBefore _ => .inl hBefore
  · apply hNodup.imp
    intro c d hNe x hx y hy hSame
    obtain ⟨s, _, rfl⟩ := List.mem_map.mp hx
    obtain ⟨t, _, rfl⟩ := List.mem_map.mp hy
    exact absurd hSame hNe

/-- All bytes that a merge touches belong to contracts. -/
theorem mem_touched (hSpans : i.unit.SpansFit i.text) (hBases : bases ⊆ i.contracts)
    (hRewritten : rewritten ⊆ i.contracts) {x : Contract × Span}
    (hx : x ∈ touched i bases rewritten) :
    x.1 ∈ i.contracts ∧ Inside x.1 x.2 ∧ x.2.FitsIn i.text := by
  simp only [touched, List.mem_append, List.mem_map, List.mem_flatMap] at hx
  rcases hx with (⟨⟨b, f⟩, hMem, rfl⟩ | ⟨c, hc, s, hs, rfl⟩) | ⟨c, hc, s, hs, rfl⟩
  · obtain ⟨hBase, hCtor⟩ := mem_constructorsOf_iff.mp hMem
    have hc := hBases hBase
    obtain ⟨hIn, hFits, _⟩ := mergeSpans_fit (hSpans.contracts b hc) (headerSpan_mem hCtor)
    exact ⟨hc, hIn, hFits⟩
  · exact ⟨hc, removedSpans_fit (hSpans.contracts c hc) hs⟩
  · have hMem := hRewritten hc
    obtain ⟨hIn, hFits, _⟩ := mergeSpans_fit (hSpans.contracts c hMem) hs
    exact ⟨hMem, hIn, hFits⟩

/-- What a merge touches in a contract: arguments of converted bases, modifiers of the constructor that
name a converted base, or places where a constructor is written, if the contract is one whose
constructor is changed. -/
theorem cases_of_touched {x : Contract × Span} (hx : x ∈ touched i bases rewritten) :
    x.2 ∈ argumentSpans (constructed bases) x.1 ∨
      (∃ f, x.1.constructor? = some f ∧ ∃ m ∈ f.modifiers,
        lastSegment m.name ∈ constructed bases ∧ x.2 = m.span) ∨
      ((x.1 ∈ bases ∨ x.1 ∈ rewritten) ∧ x.2 ∈ mergeSpans x.1) := by
  simp only [touched, List.mem_append, List.mem_map, List.mem_flatMap] at hx
  rcases hx with (⟨⟨b, f⟩, hMem, rfl⟩ | ⟨c, hc, s, hs, rfl⟩) | ⟨c, hc, s, hs, rfl⟩
  · obtain ⟨hBase, hCtor⟩ := mem_constructorsOf_iff.mp hMem
    exact .inr (.inr ⟨.inl hBase, headerSpan_mem hCtor⟩)
  · rcases mem_removedSpans hs with hArgument | ⟨hModifier, _⟩
    · exact .inl hArgument
    · unfold modifierSpans at hModifier
      cases hf : c.constructor? with
      | none => simp [hf] at hModifier
      | some f =>
          simp only [hf, Option.map_some, Option.getD_some] at hModifier
          obtain ⟨m, hm, rfl⟩ := List.mem_map.mp hModifier
          obtain ⟨hMem, hConverted⟩ := List.mem_filter.mp hm
          exact .inr (.inl ⟨f, rfl, m, hMem, List.contains_iff_mem.mp hConverted, rfl⟩)
  · exact .inr (.inr ⟨.inr hc, hs⟩)

/-- A merge never touches the same bytes twice, if the contracts whose constructors are written anew
are different contracts and not those whose constructors are converted. -/
theorem separate_touched (hSpans : i.unit.SpansFit i.text) (hBasesOnce : bases.Nodup)
    (hRewritten : rewritten ⊆ i.contracts) (hRewrittenOnce : rewritten.Nodup)
    (hApart : ∀ c ∈ rewritten, c ∉ bases) : (touched i bases rewritten).Pairwise Separate := by
  have hHeaders : ((constructorsOf bases).map fun x => (x.1, headerSpan x.2)).Pairwise Separate := by
    apply List.pairwise_map.mpr
    apply List.pairwise_filterMap.mpr
    apply hBasesOnce.imp
    intro a b hNe x hx y hy hSame
    obtain ⟨f, _, rfl⟩ := Option.map_eq_some_iff.mp hx
    obtain ⟨g, _, rfl⟩ := Option.map_eq_some_iff.mp hy
    exact absurd hSame hNe
  have hRemoved := separate_flatMap (nodup_contracts hSpans) fun c hc =>
    removedSpans_before (hSpans.contracts c hc) (constructed bases) (constructed rewritten)
  have hMerges := separate_flatMap hRewrittenOnce fun c hc =>
    mergeSpans_before (hSpans.contracts c (hRewritten hc))
  refine List.pairwise_append.mpr
    ⟨List.pairwise_append.mpr ⟨hHeaders, hRemoved, ?_⟩, hMerges, ?_⟩
  · -- In a contract with a converted constructor only arguments of bases are taken away.
    intro x hx y hy hSame
    obtain ⟨⟨b, f⟩, hMem, rfl⟩ := List.mem_map.mp hx
    obtain ⟨c, hc, hy⟩ := List.mem_flatMap.mp hy
    obtain ⟨s, hs, rfl⟩ := List.mem_map.mp hy
    obtain rfl : b = c := hSame
    obtain ⟨hBase, hCtor⟩ := mem_constructorsOf_iff.mp hMem
    have hFit := hSpans.contracts b hc
    rcases mem_removedSpans hs with hArgument | ⟨_, hName, _⟩
    · have hHeader := (mergeSpans_fit hFit (headerSpan_mem hCtor)).2.2
      exact .inr (before_of_argument hFit hArgument hHeader)
    · exact absurd (mem_constructed hBase hCtor) hName
  · intro x hx y hy hSame
    obtain ⟨c, hc, hy⟩ := List.mem_flatMap.mp hy
    obtain ⟨t, ht, rfl⟩ := List.mem_map.mp hy
    have hFit := hSpans.contracts c (hRewritten hc)
    rcases List.mem_append.mp hx with hx | hx
    · obtain ⟨⟨b, f⟩, hMem, rfl⟩ := List.mem_map.mp hx
      obtain rfl : b = c := hSame
      exact absurd (mem_constructorsOf_iff.mp hMem).1 (hApart b hc)
    · obtain ⟨d, hd, hx⟩ := List.mem_flatMap.mp hx
      obtain ⟨s, hs, rfl⟩ := List.mem_map.mp hx
      obtain rfl : d = c := hSame
      rcases mem_removedSpans hs with hArgument | ⟨hModifier, _, hName⟩
      · exact .inl (before_of_argument hFit hArgument (mergeSpans_fit hFit ht).2.2)
      · -- A contract with modifiers has a constructor, whose header would be written anew.
        cases hCtor : d.constructor? with
        | some f => exact absurd (mem_constructed hc hCtor) hName
        | none => simp [modifierSpans, hCtor] at hModifier

theorem span_of_convert {b : Contract} {f : Function} {e : Edit} (h : convert i b f = .ok e) :
    e.span = headerSpan f := by
  obtain ⟨body, hBody, rfl⟩ := Outcome.bind_pure_eq_ok_iff.mp h
  obtain ⟨inner, hInner, rfl⟩ := bodySpan_eq_ok_iff.mp hBody
  rw [headerSpan, bodyStart_eq hInner]

/-- To write a merged constructor changes what belongs to the constructor. -/
theorem spans_of_mergeEdits {p : Plan} {edits : List Edit}
    (h : mergeEdits i converted p = .ok edits) : edits.map Edit.span = mergeSpans p.contract := by
  unfold mergeEdits at h
  unfold mergeSpans
  cases hf : p.contract.constructor? with
  | none =>
      simp only [hf, Outcome.pure_eq_ok_iff] at h
      rw [← h]
      rfl
  | some f =>
      simp only [hf] at h
      obtain ⟨body, hBody, rfl⟩ := Outcome.bind_pure_eq_ok_iff.mp h
      obtain ⟨inner, hInner, rfl⟩ := bodySpan_eq_ok_iff.mp hBody
      simp [headerSpan, bodyStart_eq hInner]

theorem spans_of_removedArguments (converted replaced : List String) (c : Contract) :
    (removedArguments converted replaced c).map Edit.span = removedSpans converted replaced c := by
  unfold removedArguments removedSpans argumentSpans modifierSpans
  simp only [List.map_append, List.map_filterMap, List.map_map]
  congr 1
  · simp [Function.comp_def]
  · split <;> simp [Function.comp_def]

/-- The contracts outside of a chain that are affected are different contracts of the source. -/
theorem affectedContracts_sublist (i : Index) (main : Contract) (chain : List Contract) :
    ((affectedContracts i main chain).map Prod.fst).Sublist i.contracts := by
  have hSublist := map_filterMap_sublist (k := id) (g := Prod.fst)
    (f := fun c : Contract => ((affectedBy i chain).lookup c.name).map fun own => (c, own))
    (fun c x hx => by
      obtain ⟨own, _, rfl⟩ := Option.map_eq_some_iff.mp hx
      rfl) (otherConcrete i main)
  rw [List.map_id] at hSublist
  exact hSublist.trans List.filter_sublist

/-- Affected contracts are outside of the main chain. -/
theorem outside_of_affected {main : Contract} {chain : List Contract} {c : Contract}
    (h : c ∈ (affectedContracts i main chain).map Prod.fst) (hChain : chain = bases ++ [main]) :
    c ∈ i.contracts ∧ c.name ∉ chain.map Contract.name := by
  obtain ⟨⟨d, own⟩, hd, rfl⟩ := List.mem_map.mp h
  obtain ⟨hMem, _, _, hLookup⟩ := mem_affectedContracts_iff.mp hd
  rw [hChain] at hLookup ⊢
  exact ⟨hMem, (mem_affectedBy_iff.mp (lookup_affectedBy.mp hLookup)).2.1⟩

/-- The bytes that the edits of a merge are for. Besides the constructor of the main contract some of
the affected contracts get theirs written anew. -/
theorem spans_of_mergeFor {main : Plan} {edits : List Edit} {reports : List Report}
    (h : mergeFor i main = .ok (edits, reports)) {plans : List Plan}
    (hPlans : (affectedContracts i main.contract main.chain).mapM (fun x =>
      affectedPlan i (affectedBy i main.chain) (convertedNames main.chain) x.1 x.2) = .ok plans) :
    edits.map Edit.span = (touched i main.chain.dropLast (main.contract ::
      (plans.filter fun p => p.report.isApplied).map Plan.contract)).map Prod.snd := by
  obtain ⟨plans', hPlans', h⟩ := Outcome.bind_eq_ok_iff.mp h
  obtain rfl : plans' = plans := Except.ok.inj (hPlans'.symm.trans hPlans)
  obtain ⟨conversions, hConversions, h⟩ := Outcome.bind_eq_ok_iff.mp h
  obtain ⟨merges, hMerges, h⟩ := Outcome.bind_pure_eq_ok_iff.mp h
  obtain ⟨headers, hHeaders, rfl⟩ := Outcome.bind_pure_eq_ok_iff.mp hConversions
  obtain rfl := (Prod.mk.inj h).1
  generalize plans'.filter (fun p => p.report.isApplied) = applied at *
  have hNames : ((main :: applied).filter fun p => p.contract.constructor?.isSome).map
      (fun p => p.contract.name) = constructed (main.contract :: applied.map Plan.contract) := by
    rw [constructed, ← List.map_cons (f := Plan.contract), List.filter_map, List.map_map]
    rfl
  have hHeaderSpans : headers.map Edit.span =
      (constructorsOf main.chain.dropLast).map fun x => headerSpan x.2 :=
    Outcome.map_of_mapM hHeaders fun x _ e he => span_of_convert he
  have hMergeSpans : merges.map (List.map Edit.span) =
      (main :: applied).map fun p => mergeSpans p.contract :=
    Outcome.map_of_mapM hMerges fun p _ es hes => spans_of_mergeEdits hes
  rw [map_snd_touched, hNames, List.map_append, List.map_append, List.map_flatMap,
    List.map_flatten, hHeaderSpans, hMergeSpans, ← List.flatMap_def,
    ← List.map_cons (f := Plan.contract), List.flatMap_map]
  simp only [spans_of_removedArguments]
  rfl

/-- The plans that are applied are for some of the affected contracts, in their order. -/
theorem applied_sublist {targets : List (Contract × List Contract)} {plans : List Plan}
    {affected : List (String × List Contract)} {converted : List String}
    (hPlans : targets.mapM (fun x => affectedPlan i affected converted x.1 x.2) = .ok plans) :
    ((plans.filter fun p => p.report.isApplied).map Plan.contract).Sublist
      (targets.map Prod.fst) := by
  have hContracts : plans.map Plan.contract = targets.map Prod.fst :=
    Outcome.map_of_mapM hPlans fun x _ p hp => contract_of_affectedPlan hp
  rw [← hContracts]
  exact List.filter_sublist.map _

/-- The contracts whose constructors a merge changes are contracts of the source. -/
theorem changed_subset {main : Contract} (hOrder : i.linearize main.name = .ok (bases ++ [main]))
    {affected : List Contract}
    (hAffected : affected.Sublist ((affectedContracts i main (bases ++ [main])).map Prod.fst)) :
    bases ⊆ i.contracts ∧ main :: affected ⊆ i.contracts := by
  have hInChain {c : Contract} (hc : c ∈ bases ++ [main]) : c ∈ i.contracts :=
    Index.mem_contracts_of_contract? (Index.contract?_of_mem_linearize hOrder hc)
  refine ⟨fun c hc => hInChain (List.mem_append_left _ hc),
    List.cons_subset.mpr ⟨hInChain (by simp), fun c hc => ?_⟩⟩
  exact (outside_of_affected (hAffected.subset hc) rfl).1

/-- Along the chain of the main contract nobody but the main contract gets a new constructor. -/
theorem disjoint_touched (hSpans : i.unit.SpansFit i.text) {main : Contract}
    (hOrder : i.linearize main.name = .ok (bases ++ [main])) {affected : List Contract}
    (hAffected : affected.Sublist ((affectedContracts i main (bases ++ [main])).map Prod.fst)) :
    ((touched i bases (main :: affected)).map Prod.snd).Pairwise Span.Disjoint ∧
      ∀ x ∈ touched i bases (main :: affected), x.2.FitsIn i.text := by
  have hOutside {c : Contract} (hc : c ∈ affected) := outside_of_affected (hAffected.subset hc) rfl
  have hNames := Index.nodup_of_linearize hOrder
  obtain ⟨hBases, hRewritten⟩ := changed_subset hOrder hAffected
  have hMain : main ∉ affected := fun hc => (hOutside hc).2 (List.mem_map_of_mem (by simp))
  have hOnce : (main :: affected).Nodup :=
    List.nodup_cons.mpr ⟨hMain,
      (hAffected.trans (affectedContracts_sublist _ _ _)).nodup (nodup_contracts hSpans)⟩
  have hApart : ∀ c ∈ main :: affected, c ∉ bases := by
    intro c hc hBase
    rcases List.mem_cons.mp hc with rfl | hc
    · rw [List.map_append, List.nodup_append] at hNames
      exact hNames.2.2 _ (List.mem_map_of_mem hBase) _ List.mem_cons_self rfl
    · exact (hOutside hc).2 (List.mem_map_of_mem (List.mem_append_left _ hBase))
  have hBasesOnce : bases.Nodup :=
    (List.Nodup.of_map _ hNames).sublist (List.sublist_append_left _ _)
  have hTouched := fun x hx => mem_touched (x := x) hSpans hBases hRewritten hx
  refine ⟨?_, fun x hx => (hTouched x hx).2.2⟩
  apply disjoint_of_separate hSpans (fun x hx => ⟨(hTouched x hx).1, (hTouched x hx).2.1⟩)
  exact separate_touched hSpans hBasesOnce hRewritten hOnce hApart

/-- A merge that changes something is made along the chain of the main contract. -/
theorem mergeFor_of_merge {name : String} {edits : List Edit} {reports : List Report}
    (h : merge i name = .ok (edits, reports)) :
    edits = [] ∨ ∃ (p : Plan) (bases : List Contract), plan i p.contract (fun _ => true) = .ok p ∧
      p.chain = bases ++ [p.contract] ∧ i.linearize p.contract.name = .ok (bases ++ [p.contract]) ∧
      mergeFor i p = .ok (edits, reports) := by
  obtain ⟨main, hMain, hRest⟩ := Outcome.bind_eq_ok_iff.mp h
  obtain ⟨p, hPlan, hMerge⟩ := Outcome.bind_eq_ok_iff.mp hRest
  split at hMerge
  · have hFound := Index.contract?_name (Index.contract_eq_ok_iff.mp hMain)
    obtain ⟨bases, _, hPlanned⟩ := isPlanned_of_self hPlan hFound
    obtain rfl := hPlanned.subject
    exact .inr ⟨p, bases, hPlan, hPlanned.chain, hPlanned.order, hMerge⟩
  · exact .inl (Prod.mk.inj (Except.ok.inj hMerge)).1.symm

/-- The edits of a merge touch different bytes, and all of them are there. -/
theorem disjoint_of_merge (hSpans : i.unit.SpansFit i.text) {name : String} {edits : List Edit}
    {reports : List Report} (h : merge i name = .ok (edits, reports)) :
    (edits.map Edit.span).Pairwise Span.Disjoint ∧ ∀ e ∈ edits, e.span.FitsIn i.text := by
  rcases mergeFor_of_merge h with rfl | ⟨p, bases, _, hChain, hOrder, hMerge⟩
  · exact ⟨.nil, by simp⟩
  · obtain ⟨plans, _, _, _, _, hPlans, _⟩ := mergeFor_eq_ok hMerge
    have hEdits := spans_of_mergeFor hMerge hPlans
    have hAffected := applied_sublist hPlans
    rw [hChain, List.dropLast_concat] at hEdits
    rw [hChain] at hAffected
    obtain ⟨hDisjoint, hFits⟩ := disjoint_touched hSpans hOrder hAffected
    refine ⟨hEdits ▸ hDisjoint, fun e he => ?_⟩
    have hSpan := List.mem_map_of_mem (f := Edit.span) he
    rw [hEdits] at hSpan
    obtain ⟨x, hx, hSame⟩ := List.mem_map.mp hSpan
    exact hSame ▸ hFits x hx

end

section

open Outcome

variable {i : Index}

/-- Arguments are refused for their number or their repetition, which is never a slip. -/
theorem failsIn_bindingAt (contract : Contract) (chain : List Contract) (supplier : Contract)
    (site : Invocation × Bool) :
    FailsIn (fun e => e.isSlip = false) (bindingAt contract chain supplier site) := by
  unfold bindingAt
  split
  · dsimp only
    split
    · exact failsIn_error rfl
    · split
      · exact failsIn_error rfl
      · exact failsIn_ok _
  · exact failsIn_ok _

theorem failsIn_bindingsOf (contract : Contract) (chain : List Contract) :
    FailsIn (fun e => e.isSlip = false) (bindingsOf contract chain) := by
  refine (Meets.foldlM (fun _ _ => True) (fun place _ bindings _ => ⟨?_, fun _ _ => trivial⟩)
    trivial).fails
  apply (failsIn_bindingAt contract chain place.1 place.2).bind
  intro binding _
  cases binding with
  | none => exact failsIn_ok _
  | some binding =>
      dsimp only
      split
      · exact failsIn_error rfl
      · exact failsIn_ok _

theorem failsIn_plan (contract : Contract) (isInitialized : Contract → Bool) :
    FailsIn (fun e => e.isSlip = false) (plan i contract isInitialized) := by
  apply (Index.failsIn_linearize i contract.name).bind
  intro chain _
  apply (failsIn_bindingsOf contract chain).bind
  intro bindings _
  exact failsIn_ok _

/-- The constructors of contracts whose spans fit have bodies. -/
theorem bodySpan_of_constructor (hSpans : i.unit.SpansFit i.text) {c : Contract}
    (hc : c ∈ i.contracts) {f : Function} (hf : c.constructor? = some f) :
    ∃ span, bodySpan c f = .ok span := by
  obtain ⟨b, hBody, _⟩ := body_of_constructor (hSpans.contracts c hc) hf
  exact ⟨b.span, bodySpan_eq_ok_iff.mpr ⟨b, hBody, rfl⟩⟩

/-- Where spans fit, every constructor can be converted. -/
theorem failsIn_convert (hSpans : i.unit.SpansFit i.text) {c : Contract} (hc : c ∈ i.contracts)
    {f : Function} (hf : c.constructor? = some f) :
    FailsIn (fun e => e.isSlip = false) (convert i c f) := by
  obtain ⟨span, hBody⟩ := bodySpan_of_constructor hSpans hc hf
  unfold convert
  rw [hBody]
  exact failsIn_ok _

theorem failsIn_mergeEdits (hSpans : i.unit.SpansFit i.text) (converted : List String) {p : Plan}
    (hp : p.contract ∈ i.contracts) :
    FailsIn (fun e => e.isSlip = false) (mergeEdits i converted p) := by
  unfold mergeEdits
  cases hf : p.contract.constructor? with
  | none => exact failsIn_ok _
  | some f =>
      obtain ⟨span, hBody⟩ := bodySpan_of_constructor hSpans hp hf
      dsimp only
      rw [hBody]
      exact failsIn_ok _

/-- Where spans fit, a merge fails only because of what the source says. -/
theorem failsIn_mergeFor (hSpans : i.unit.SpansFit i.text) {main : Plan}
    (hMain : main.contract ∈ i.contracts) (hChain : main.chain ⊆ i.contracts) :
    FailsIn (fun e => e.isSlip = false) (mergeFor i main) := by
  unfold mergeFor
  apply FailsIn.bind
  · apply FailsIn.mapM
    intro x _
    exact (failsIn_plan x.1 _).bind fun p _ => failsIn_ok _
  · intro plans hPlans
    apply FailsIn.bind
    · apply FailsIn.bind
      · apply FailsIn.mapM
        intro x hx
        obtain ⟨hBase, hCtor⟩ := mem_constructorsOf_iff.mp hx
        exact failsIn_convert hSpans (hChain (List.mem_of_mem_dropLast hBase)) hCtor
      · exact fun headers _ => failsIn_ok _
    · intro conversions _
      apply FailsIn.bind
      · apply FailsIn.mapM
        intro p hp
        apply failsIn_mergeEdits hSpans
        rcases List.mem_cons.mp hp with rfl | hp
        · exact hMain
        · obtain ⟨⟨c, own⟩, hAffected, hPlan⟩ :=
            exists_of_mem_result hPlans (List.mem_of_mem_filter hp)
          rw [contract_of_affectedPlan hPlan]
          exact (mem_affectedContracts_iff.mp hAffected).1
      · exact fun merges _ => failsIn_ok _

/-- A merge fails for what is wrong with the source, never for want of a body. -/
theorem failsIn_merge (hSpans : i.unit.SpansFit i.text) (name : String) :
    FailsIn (fun e => e.isSlip = false) (merge i name) := by
  apply (Index.failsIn_contract i name).bind
  intro main hMain
  apply (failsIn_plan main _).bind
  intro p hPlan
  obtain ⟨hContract, hOrder, _⟩ := initializers_of_plan hPlan
  split
  · apply failsIn_mergeFor hSpans
    · rw [hContract]
      exact Index.mem_contracts_of_contract? (Index.contract_eq_ok_iff.mp hMain)
    · intro c hc
      exact Index.mem_contracts_of_contract? (Index.contract?_of_mem_linearize hOrder hc)
  · exact failsIn_ok _

end

end SolNorm.Construction
