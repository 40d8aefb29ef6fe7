import SolNorm.Proofs.Construction.Spans
import SolNorm.Proofs.Outline.Placed
import SolNorm.Proofs.Selector.Places
import SolNorm.Proofs.Text.Parts

/-!
What becomes of a definition when constructors are merged and functions get new names. A merge meets
no definition but constructors, and of a constructor it either writes the whole header anew or leaves
everything up to the parameters. A new name is written in the place of the old one, and the rest of
the definition up to its parameters stays.
-/

namespace SolNorm

open Outline

/-- A definition up to the end of its parameters. -/
def Outline.Function.headSpan (f : Function) : Span := ⟨f.span.start, f.paramsSpan.stop⟩

/-- The header of a function that is placed can be cut out of the text. -/
theorem Outline.Function.Placed.headSpan_fits {text : String} {f : Function} (h : f.Placed text) :
    f.headSpan.FitsIn text := by
  have hParams := Span.encloses_iff.mp h.params.2
  exact ⟨hParams.1.trans h.params.1.1, h.fits.2.1, h.params.1.2.2⟩

/-- Different functions of a contract have no byte in common. -/
theorem Outline.Contract.Placed.disjoint_functions {text : String} {c : Contract}
    (h : c.Placed text) {f g : Function} (hf : f ∈ c.functions) (hg : g ∈ c.functions)
    (hNe : f ≠ g) : f.span.Disjoint g.span := by
  have hDisjoint : c.functions.Pairwise fun f g => f.span.Disjoint g.span :=
    (List.pairwise_map.mp h.routines.before).imp Or.inl
  have : Std.Symm fun f g : Function => f.span.Disjoint g.span := ⟨fun _ _ h => h.symm⟩
  exact hDisjoint.forall hf hg hNe

/-- What lies in one of two spans without a common byte is on one side of the other. -/
theorem Span.Between.side {s t u : Span} (hIn : s.Between t.start t.stop) (hApart : t.Disjoint u) :
    s.stop ≤ u.start ∨ u.stop ≤ s.start :=
  hApart.imp (fun hBefore => hIn.2.trans hBefore.2) fun hBehind => hBehind.2.trans hIn.1

/-- What lies in another contract is on one side of a function. -/
theorem Outline.Placed.side_of_ne {i : Index} (hPlaced : i.unit.Placed i.text) {c d : Contract}
    (hc : c ∈ i.contracts) (hd : d ∈ i.contracts) (hNe : d ≠ c) {f : Function}
    (hf : f ∈ c.functions) {s : Span} (hIn : s.Between d.span.start d.span.stop) :
    s.stop ≤ f.span.start ∨ f.span.stop ≤ s.start := by
  have hContract := hPlaced.derivations c hc
  have hBody := Span.encloses_iff.mp hContract.body.2
  obtain ⟨_, hStart, hStop⟩ := hContract.functions f hf
  rcases hIn.side (Construction.disjoint_of_ne hPlaced.toSpansFit hd hc hNe) with hBefore | hBehind
  · exact .inl (hBefore.trans (hBody.1.trans hStart.le))
  · exact .inr ((hStop.le.trans hBody.2).trans hBehind)

namespace Construction

variable {i : Index} {bases rewritten : List Contract}

section

variable (hPlaced : i.unit.Placed i.text)

include hPlaced

/-- A constructor is written before the functions of its contract, or in the place of the one that is
there. -/
theorem between_of_mergeSpans {c : Contract} (hc : c ∈ i.contracts) {s : Span}
    (hs : s ∈ mergeSpans c) :
    (∀ f ∈ c.functions, s.stop ≤ f.span.start) ∨
      ∃ f, c.constructor? = some f ∧ s.Between f.span.start f.span.stop := by
  have hContract := hPlaced.derivations c hc
  unfold mergeSpans at hs
  cases hf : c.constructor? with
  | none =>
      simp only [hf, List.mem_singleton] at hs
      rw [hs]
      exact .inl fun f hf => (hContract.routines.each f hf).2.2.1
  | some f =>
      obtain ⟨b, hBody, hFunction, _, _, hHeader, hBraces, _⟩ :=
        body_of_constructor hContract.toSpansFit hf
      have hInside := Span.encloses_iff.mp (hFunction.body b hBody).2.1
      simp only [hf, headerSpan, bodyStart_eq hBody] at hs
      refine .inr ⟨f, rfl, ?_⟩
      unfold Span.Between at hInside ⊢
      rcases List.mem_pair.mp hs with rfl | rfl <;> dsimp only [Span.point] <;> omega

/-- What a merge touches in a contract is before its functions or in its constructor. There it is
behind the parameters, unless the constructor is changed. -/
theorem before_or_inside_of_touched {x : Contract × Span} (hc : x.1 ∈ i.contracts)
    (hx : x ∈ touched i bases rewritten) :
    (∀ f ∈ x.1.functions, x.2.stop ≤ f.span.start) ∨
      ∃ f, x.1.constructor? = some f ∧ x.2.Between f.span.start f.span.stop ∧
        (f.paramsSpan.stop ≤ x.2.start ∨ x.1 ∈ bases ∨ x.1 ∈ rewritten) := by
  have hContract := hPlaced.derivations x.1 hc
  rcases cases_of_touched hx with hArgument | ⟨f, hf, m, hm, _, hSpan⟩ | ⟨hChanged, hSpan⟩
  · left
    intro f hf
    have hStop := (argumentSpans_fit hContract.toSpansFit _ hArgument).2.2
    exact hStop.trans (hContract.functions f hf).2.1.le
  · have hFunction := (hContract.routines.each f (List.mem_of_find?_eq_some hf)).1
    obtain ⟨_, _, hBehind, _⟩ := hFunction.invoked.each m hm
    have hIn := Span.encloses_iff.mp (hFunction.modifiers m hm).2
    exact .inr ⟨f, hf, hSpan ▸ hIn, .inl (hSpan ▸ hBehind)⟩
  · rcases between_of_mergeSpans hPlaced hc hSpan with hBefore | ⟨f, hf, hIn⟩
    · exact .inl hBefore
    · exact .inr ⟨f, hf, hIn, .inr hChanged⟩

/-- A merge meets no definition that is not the constructor of its contract. -/
theorem apart_of_touched (hBases : bases ⊆ i.contracts) (hRewritten : rewritten ⊆ i.contracts)
    {x : Contract × Span} (hx : x ∈ touched i bases rewritten) {c : Contract} (hc : c ∈ i.contracts)
    {f : Function} (hf : f ∈ c.functions) :
    (x.2.stop ≤ f.span.start ∨ f.span.stop ≤ x.2.start) ∨
      (c.constructor? = some f ∧ (f.paramsSpan.stop ≤ x.2.start ∨ c ∈ bases ∨ c ∈ rewritten)) := by
  obtain ⟨hOwner, hInside, _⟩ := mem_touched hPlaced.toSpansFit hBases hRewritten hx
  have hContract := hPlaced.derivations c hc
  by_cases hSame : x.1 = c
  · rcases before_or_inside_of_touched hPlaced hOwner hx with hBefore | ⟨g, hCtor, hIn, hPart⟩
    · exact .inl (.inl (hBefore f (hSame ▸ hf)))
    · rw [hSame] at hCtor hPart
      by_cases hFunction : g = f
      · exact .inr (hFunction ▸ ⟨hCtor, hPart⟩)
      · exact .inl (hIn.side
          (hContract.disjoint_functions (List.mem_of_find?_eq_some hCtor) hf hFunction))
  · exact .inl (hPlaced.side_of_ne hc hOwner hSame hf ⟨hInside.1, hInside.2.2.le⟩)

end

/-- What a merge makes of a definition. A constructor keeps everything up to its parameters, or it
becomes a function with the same parameters, or its header is written anew as it is planned. All other
definitions stay as they are. -/
inductive MergedAs (i : Index) (edits : List Edit) (result : List Char) (c : Contract)
    (f : Function) : Prop where
  | kept (other : c.constructor? ≠ some f)
      (whole : Edit.Leaves i.text.toList (edits.mergeSort Edit.inOrder) f.span
        (f.span.slice i.text).toList result)
  | opened (own : c.constructor? = some f)
      (head : Edit.Leaves i.text.toList (edits.mergeSort Edit.inOrder) f.headSpan
        (f.headSpan.slice i.text).toList result)
  | converted (own : c.constructor? = some f) (rest : String)
      (header : Edit.Leaves i.text.toList (edits.mergeSort Edit.inOrder) (headerSpan f)
        ("function " ++ initializerName c.name ++ f.paramsSpan.slice i.text ++ rest).toList result)
  | rewritten (own : c.constructor? = some f) {isInitialized : Contract → Bool} {p : Plan}
      (planned : plan i c isInitialized = .ok p) (rest : String)
      (header : Edit.Leaves i.text.toList (edits.mergeSort Edit.inOrder) (headerSpan f)
        ("constructor(" ++ ", ".intercalate p.report.parameters ++ ")" ++ rest).toList result)

/-- The header that a converted constructor gets. -/
theorem header_of_convert {c : Contract} {f : Function} {e : Edit} (h : convert i c f = .ok e) :
    ∃ rest, e.replacement =
      "function " ++ initializerName c.name ++ f.paramsSpan.slice i.text ++ rest := by
  obtain ⟨body, _, rfl⟩ := Outcome.bind_pure_eq_ok_iff.mp h
  exact ⟨_, (String.append_assoc ..).trans (String.append_assoc ..)⟩

/-- The header of a constructor that is written anew. -/
theorem header_of_mergeEdits {names : List String} {p : Plan} {f : Function} {edits : List Edit}
    (hf : p.contract.constructor? = some f) (h : mergeEdits i names p = .ok edits) :
    ∃ e ∈ edits, e.span = headerSpan f ∧ ∃ rest, e.replacement =
      "constructor(" ++ ", ".intercalate p.report.parameters ++ ")" ++ rest := by
  unfold mergeEdits at h
  simp only [hf] at h
  obtain ⟨body, hBody, rfl⟩ := Outcome.bind_pure_eq_ok_iff.mp h
  obtain ⟨inner, hInner, rfl⟩ := bodySpan_eq_ok_iff.mp hBody
  refine ⟨_, List.mem_cons_self, ?_, _, String.append_assoc ..⟩
  rw [headerSpan, bodyStart_eq hInner]

/-- The edits of a merge, by the bases whose constructors are converted and the plans by which
constructors are written anew. -/
structure Changes (i : Index) (bases : List Contract) (plans : List Plan) (edits : List Edit) :
    Prop where
  inSource : bases ⊆ i.contracts ∧ plans.map Plan.contract ⊆ i.contracts
  spans : ∀ e ∈ edits, ∃ x ∈ touched i bases (plans.map Plan.contract), x.2 = e.span
  conversions : ∀ b ∈ bases, ∀ f, b.constructor? = some f → ∃ e ∈ edits, convert i b f = .ok e
  merges : ∀ p ∈ plans, ∃ names inner, mergeEdits i names p = .ok inner ∧ inner ⊆ edits
  planned : ∀ p ∈ plans, ∃ isInitialized q, plan i p.contract isInitialized = .ok q ∧
    p.report.parameters = q.report.parameters

/-- The edits of a merge are those of its plans. -/
theorem changes_of_merge {name : String} {edits : List Edit} {reports : List Report}
    (h : merge i name = .ok (edits, reports)) : ∃ bases plans, Changes i bases plans edits := by
  rcases mergeFor_of_merge h with rfl | ⟨main, bases, hPlan, hChain, hOrder, hMerge⟩
  · exact ⟨[], [], by simp, by simp, by simp, by simp, by simp⟩
  · obtain ⟨plans, headers, removed, merges, _, hPlans, hHeaders, _, hMerges, rfl, _⟩ :=
      mergeFor_eq_ok hMerge
    have hSpans := spans_of_mergeFor hMerge hPlans
    have hAffected := applied_sublist hPlans
    rw [hChain, List.dropLast_concat] at hSpans hHeaders
    rw [hChain] at hAffected
    refine ⟨bases, main :: plans.filter fun p => p.report.isApplied,
      changed_subset hOrder hAffected, fun e he => ?_, fun b hb f hf => ?_, fun p hp => ?_, ?_⟩
    · have hSpan := List.mem_map_of_mem (f := Edit.span) he
      rw [hSpans] at hSpan
      exact List.mem_map.mp hSpan
    · obtain ⟨e, he, hConvert⟩ :=
        Outcome.exists_right_of_mem hHeaders ((mem_constructorsOf_iff (x := (b, f))).mpr ⟨hb, hf⟩)
      exact ⟨e, List.mem_append_left _ (List.mem_append_left _ he), hConvert⟩
    · obtain ⟨inner, hInner, hEdits⟩ := Outcome.exists_right_of_mem hMerges hp
      exact ⟨_, inner, hEdits, fun e he =>
        List.mem_append_right _ (List.mem_flatten.mpr ⟨inner, hInner, he⟩)⟩
    · refine List.forall_mem_cons.mpr ⟨⟨_, main, hPlan, rfl⟩, fun p hp => ?_⟩
      obtain ⟨⟨c, chain⟩, _, hOk⟩ :=
        Outcome.exists_of_mem_result hPlans (List.mem_of_mem_filter hp)
      obtain ⟨q, hq, _, hParameters, _⟩ := plan_of_affectedPlan hOk
      exact ⟨_, q, contract_of_affectedPlan hOk ▸ hq, hParameters⟩

/-- What a merge makes of each definition. -/
theorem mergedAs_of_merge (hPlaced : i.unit.Placed i.text) {name : String} {edits : List Edit}
    {reports : List Report} (h : merge i name = .ok (edits, reports)) {result : List Char}
    (hResult : Edit.splice? i.text.toList (Text.byteSize i.text.toList) 0
      (edits.mergeSort Edit.inOrder) = some result)
    {c : Contract} (hc : c ∈ i.contracts) {f : Function} (hf : f ∈ c.functions) :
    MergedAs i edits result c f := by
  obtain ⟨hDisjoint, hFits⟩ := disjoint_of_merge hPlaced.toSpansFit h
  have hEdits := Edit.compatible_of_disjoint hFits hDisjoint
  have hFunction := ((hPlaced.derivations c hc).routines.each f hf).1
  have hWritten {e : Edit} (he : e ∈ edits) {text : String} (hText : e.replacement = text)
      (hSpan : e.span = headerSpan f) : Edit.Leaves i.text.toList (edits.mergeSort Edit.inOrder)
        (headerSpan f) text.toList result := by
    rw [← hSpan, ← hText]
    exact Edit.leaves_replacement hEdits he (hFits e he) hResult
  obtain ⟨bases, plans, hChanges⟩ := changes_of_merge h
  have hApart : ∀ e ∈ edits, (e.span.stop ≤ f.span.start ∨ f.span.stop ≤ e.span.start) ∨
      (c.constructor? = some f ∧
        (f.paramsSpan.stop ≤ e.span.start ∨ c ∈ bases ∨ c ∈ plans.map Plan.contract)) := by
    intro e he
    obtain ⟨x, hx, hSpan⟩ := hChanges.spans e he
    rw [← hSpan]
    exact apart_of_touched hPlaced hChanges.inSource.1 hChanges.inSource.2 hx hc hf
  by_cases hOwn : c.constructor? = some f
  · by_cases hBase : c ∈ bases
    · obtain ⟨e, he, hConvert⟩ := hChanges.conversions c hBase f hOwn
      obtain ⟨rest, hText⟩ := header_of_convert hConvert
      exact .converted hOwn rest (hWritten he hText (span_of_convert hConvert))
    · by_cases hPlan : c ∈ plans.map Plan.contract
      · obtain ⟨p, hp, rfl⟩ := List.mem_map.mp hPlan
        obtain ⟨names, inner, hInner, hSubset⟩ := hChanges.merges p hp
        obtain ⟨isInitialized, q, hq, hParameters⟩ := hChanges.planned p hp
        obtain ⟨e, he, hSpan, rest, hText⟩ := header_of_mergeEdits hOwn hInner
        rw [hParameters] at hText
        exact .rewritten hOwn hq rest (hWritten (hSubset he) hText hSpan)
      · refine .opened hOwn (Edit.leaves_slice hEdits hFunction.headSpan_fits hResult fun e he => ?_)
        have hParams := (Span.encloses_iff.mp hFunction.params.2).2
        rcases hApart e he with (hBefore | hBehind) | ⟨_, hBehind | hChanged⟩
        · exact .inl hBefore
        · exact .inr (hParams.trans hBehind)
        · exact .inr hBehind
        · exact absurd hChanged (not_or.mpr ⟨hBase, hPlan⟩)
  · refine .kept hOwn (Edit.leaves_slice hEdits hFunction.fits hResult fun e he => ?_)
    exact (hApart e he).resolve_right fun hCtor => hOwn hCtor.1

end Construction

namespace Collision

variable {hash : String → Selector} {i : Index}

/-- The new names, each in the place of the old one. -/
def renameEdits (r : Renames) : List Edit := r.map fun e => ⟨e.span, e.name⟩

/-- What new names make of a definition. Up to its parameters it stays as it is, or has a new name in
the place of the old one. -/
inductive RenamedAs (i : Index) (r : Renames) (result : List Char) (f : Function) : Prop where
  | kept (old : ∀ e ∈ r, f.nameSpan ≠ some e.span)
      (head : Edit.Leaves i.text.toList
        ((renameEdits r ++ CallSite.edits i r).mergeSort Edit.inOrder) f.headSpan
        (f.headSpan.slice i.text).toList result)
  | renamed {e : Rename} (entry : e ∈ r) (name : f.nameSpan = some e.span)
      (head : Edit.Leaves i.text.toList
        ((renameEdits r ++ CallSite.edits i r).mergeSort Edit.inOrder) f.headSpan
        ((Span.mk f.headSpan.start e.span.start).slice i.text ++ e.name ++
          (Span.mk e.span.stop f.headSpan.stop).slice i.text).toList result)

section

variable (hPlaced : i.unit.Placed i.text)

include hPlaced

/-- A function names what it calls behind its parameters. -/
theorem behind_or_name {c : Contract} (hc : c ∈ i.contracts) {f : Function} (hf : f ∈ c.functions)
    {s : Span} (hs : s ∈ f.nameSpans) : f.headSpan.stop ≤ s.start ∨ f.nameSpan = some s := by
  have hFunction := ((hPlaced.derivations c hc).routines.each f hf).1
  unfold Function.nameSpans at hs
  rcases List.mem_append.mp hs with hs | hs
  · exact .inr (Option.mem_toList.mp hs)
  · left
    rcases List.mem_append.mp hs with hs | hs
    · obtain ⟨m, hm, hs⟩ := List.mem_flatMap.mp hs
      obtain ⟨hModifier, _, hBehind, _⟩ := hFunction.invoked.each m hm
      exact hBehind.trans (hModifier.calls.namesIn.inside s hs).2.1
    · cases hBody : f.body with
      | none => simp [hBody] at hs
      | some b =>
          simp only [hBody, Option.map_some, Option.getD_some] at hs
          obtain ⟨hInside, hBehind, _⟩ := hFunction.inside b hBody
          exact hBehind.trans (hInside.calls.namesIn.inside s hs).2.1

/-- Functions are called and named outside a definition up to its parameters, apart from the name of
the definition itself. -/
theorem outside_or_name {c : Contract} (hc : c ∈ i.contracts) {f : Function}
    (hf : f ∈ c.functions) {s : Span} (hs : s ∈ i.unit.nameSpans) :
    (s.stop ≤ f.headSpan.start ∨ f.headSpan.stop ≤ s.start) ∨ f.nameSpan = some s := by
  have hContract := hPlaced.derivations c hc
  have hParams := (Span.encloses_iff.mp (hContract.routines.each f hf).1.params.2).2
  have hHead (hSide : s.stop ≤ f.span.start ∨ f.span.stop ≤ s.start) :
      s.stop ≤ f.headSpan.start ∨ f.headSpan.stop ≤ s.start := hSide.imp_right hParams.trans
  obtain ⟨d, hd, hs⟩ := List.mem_flatMap.mp ((nameSpans_perm i.unit).mem_iff.mp hs)
  by_cases hSame : d = c
  · rw [hSame] at hs
    unfold Contract.nameSpans at hs
    simp only [List.mem_append, List.mem_flatMap] at hs
    rcases hs with ⟨b, hb, hs⟩ | ⟨v, hv, hs⟩ | ⟨g, hg, hs⟩
    · -- The bases of a contract stand before its body.
      obtain ⟨hBase, _, _, hStop⟩ := hContract.derived.each b hb
      have hIn := (hBase.calls.namesIn.inside s hs).2.2
      exact .inl (.inl (hIn.trans (hStop.trans (hContract.functions f hf).2.1.le)))
    · have hIn := (hContract.stored.each v hv).1.calls.namesIn.inside s hs
      exact .inl (hHead (hIn.2.side (hContract.apart v hv f hf)))
    · by_cases hFunction : g = f
      · rw [hFunction] at hs
        exact (behind_or_name hPlaced hc hf hs).imp_left Or.inr
      · have hIn := (hContract.routines.each g hg).1.namesIn.inside s hs
        exact .inl (hHead (hIn.2.side (hContract.disjoint_functions hg hf hFunction)))
  · have hIn := (hPlaced.derivations d hd).namesIn.inside s hs
    exact .inl (hHead (hPlaced.side_of_ne hc hd hSame hf hIn.2))

/-- New names and the calls that follow them are edited at different places. -/
theorem Placed.compatible {r : Renames} (h : Placed i r) :
    Edit.Compatible (renameEdits r ++ CallSite.edits i r) := by
  have hSpans := hPlaced.toSpansFit
  have hFits : ∀ a ∈ renameEdits r ++ CallSite.edits i r, a.span.FitsIn i.text := by
    intro a ha
    rcases List.mem_append.mp ha with ha | ha
    · obtain ⟨e, he, rfl⟩ := List.mem_map.mp ha
      exact h.fits hSpans he
    · exact fits_of_callEdits hSpans ha
  exact Edit.compatible_of_disjoint hFits (h.disjoint_calls hSpans)

/-- New names are written outside a definition up to its parameters, unless the definition has a new
name itself. -/
theorem outside_or_renamed {r : Renames} (hNames : Placed i r) {c : Contract} (hc : c ∈ i.contracts)
    {f : Function} (hf : f ∈ c.functions) {a : Edit} (ha : a ∈ renameEdits r ++ CallSite.edits i r) :
    (a.span.stop ≤ f.headSpan.start ∨ f.headSpan.stop ≤ a.span.start) ∨
      ∃ e ∈ r, f.nameSpan = some e.span ∧ a = ⟨e.span, e.name⟩ := by
  rcases List.mem_append.mp ha with ha | ha
  · obtain ⟨e, he, rfl⟩ := List.mem_map.mp ha
    obtain ⟨d, hd, _, hName⟩ := hNames.named e he
    have hSpan : e.span ∈ i.unit.nameSpans :=
      List.mem_append_right _ (List.mem_filterMap.mpr ⟨d, hd, hName⟩)
    exact (outside_or_name hPlaced hc hf hSpan).imp_right fun hSame => ⟨e, he, hSame, rfl⟩
  · have hCall : a.span ∈ i.unit.callSites.map fun site => site.2.calleeSpan :=
      (spans_of_callEdits i r).subset (List.mem_map_of_mem ha)
    refine (outside_or_name hPlaced hc hf (List.mem_append_left _ hCall)).imp_right fun hSame => ?_
    -- No function is named where one is called.
    have hCross := (List.pairwise_append.mp hPlaced.names).2.2 a.span hCall a.span
      (List.mem_filterMap.mpr ⟨(c, f), Outline.mem_definitions_iff.mpr ⟨hc, hf⟩, hSame⟩)
    unfold Span.Disjoint Span.Before at hCross
    omega

/-- What new names make of each definition. -/
theorem renamedAs_of_placed {r : Renames} (hNames : Placed i r) {result : List Char}
    (hResult : Edit.splice? i.text.toList (Text.byteSize i.text.toList) 0
      ((renameEdits r ++ CallSite.edits i r).mergeSort Edit.inOrder) = some result)
    {c : Contract} (hc : c ∈ i.contracts) {f : Function} (hf : f ∈ c.functions) :
    RenamedAs i r result f := by
  have hFunction := ((hPlaced.derivations c hc).routines.each f hf).1
  have hEdits := Placed.compatible hPlaced hNames
  by_cases hNew : ∃ e ∈ r, f.nameSpan = some e.span
  · obtain ⟨e, he, hName⟩ := hNew
    have hMem : (⟨e.span, e.name⟩ : Edit) ∈ renameEdits r ++ CallSite.edits i r :=
      List.mem_append_left _ (List.mem_map.mpr ⟨e, he, rfl⟩)
    have hApart : ∀ a ∈ renameEdits r ++ CallSite.edits i r, a = ⟨e.span, e.name⟩ ∨
        a.span.stop ≤ f.headSpan.start ∨ f.headSpan.stop ≤ a.span.start := by
      intro a ha
      rcases outside_or_renamed hPlaced hNames hc hf ha with hSide | ⟨_, _, hSame, rfl⟩
      · exact .inr hSide
      · exact .inl (hEdits.eq_of_span ha hMem (Option.some.inj (hSame.symm.trans hName)))
    obtain ⟨⟨hLt, _⟩, hStart, hStop⟩ := hFunction.named e.span hName
    have hIn : f.headSpan.start ≤ e.span.start ∧ e.span.start < e.span.stop ∧
        e.span.stop ≤ f.headSpan.stop := ⟨hStart, hLt, hStop.trans hFunction.params.1.1⟩
    have hLeaves := Edit.leaves_replaced hEdits hFunction.headSpan_fits hMem hResult hIn hApart
    exact .renamed he hName hLeaves
  · refine .kept (fun e he hName => hNew ⟨e, he, hName⟩)
      (Edit.leaves_slice hEdits hFunction.headSpan_fits hResult fun a ha => ?_)
    refine (outside_or_renamed hPlaced hNames hc hf ha).resolve_right ?_
    rintro ⟨e, he, hName, _⟩
    exact hNew ⟨e, he, hName⟩

end

end Collision

end SolNorm
