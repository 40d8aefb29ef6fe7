import SolNorm.Proofs.Construction.Parameters
import SolNorm.Proofs.Construction.Spans

/-!
What a merge of constructors leaves alone. Every edit lies in one contract, at a header, at arguments
that are taken away or behind a brace. Contracts that have to do neither with the main contract nor
with a converted base are not touched, with one exception: contracts are told apart by their names
when calls are planned, so a contract can get the calls of another one with its name.
-/

namespace SolNorm

/-- Two spans have a byte or an end in common. -/
def Span.Touches (s t : Span) : Prop := s.start ≤ t.stop ∧ t.start ≤ s.stop

instance : DecidableRel Span.Touches := fun _ _ => inferInstanceAs (Decidable (_ ∧ _))

/-- An order is that of the contract that stands last in it, whatever name it was asked for by. -/
theorem Index.linearize_last {i : Index} {name : String} {own : List Outline.Contract}
    {d : Outline.Contract} (h : i.linearize name = .ok (own ++ [d])) :
    i.linearize d.name = .ok (own ++ [d]) := by
  obtain ⟨c, bases, hFound, hAppend⟩ := linearize_eq_append h
  obtain rfl : d = c := List.singleton_inj.mp (List.append_inj' hAppend rfl).2
  rw [← h, linearize_eq, linearize_eq, order_congr (contract?_name hFound) hFound]

namespace Construction

open Outline Relation

/-- In the headers of constructors no contract is named but those that the contract inherits. -/
def HeadersInherit (i : Index) : Prop :=
  ∀ c ∈ i.contracts, ∀ f, c.constructor? = some f → ∀ m ∈ f.modifiers, ∀ d,
    i.contract? m.name = some d → TransGen i.Extends c d

/-- Constructors have to be merged for a contract: one that it inherits takes parameters. -/
def IsNeeded (i : Index) (main : Contract) : Prop :=
  ∃ b, TransGen i.Extends main b ∧ parametersOf b ≠ []

/-- The places in a contract where a merge may edit. -/
inductive Place (i : Index) (main c : Contract) : Span → Prop where
  | header {f : Function} {s : Span} (ctor : c.constructor? = some f)
      (within : (headerSpan f).encloses s = true) : Place i main c s
  | arguments {b : Invocation} {d : Contract} {s : Span} (base : b ∈ c.bases)
      (named : i.contract? b.name = some d) (converted : IsConverted i main d)
      (args : b.argsSpan = some s) : Place i main c s
  | constructorBody {f : Function} {body : Body} (ctor : c.constructor? = some f)
      (written : f.body = some body) : Place i main c (.point (body.span.start + 1))
  | contractBody (unwritten : c.constructor? = none) : Place i main c (.point (c.bodySpan.start + 1))

/-- A contract has to do with a merge: the main contract is the contract or inherits it, or it inherits
a converted base. -/
def IsRelated (i : Index) (main c : Contract) : Prop :=
  ReflTransGen i.Extends main c ∨ ∃ b, TransGen i.Extends c b ∧ IsConverted i main b

/-- A contract that can be deployed gets the calls that are planned for the contract that its name
stands for: that one inherits a converted base and does not leave it to another contract, and no
contract in the order of the main one has the name. -/
def GetsCallsOf (i : Index) (main c d : Contract) : Prop :=
  c.isConcrete = true ∧ (∀ x, ReflTransGen i.Extends main x → x.name ≠ c.name) ∧
    (∃ own, i.linearize c.name = .ok (own ++ [d])) ∧
    ∃ base, IsConverted i main base ∧ TransGen i.Extends d base ∧
      ∀ e, TransGen i.Extends d e → IsOther i main e → ¬ TransGen i.Extends e base

section

variable {i : Index} {main : Contract} {bases : List Contract}

/-- What a name of a converted base stands for. -/
theorem exists_converted_of_mem (hMain : i.linearize main.name = .ok (bases ++ [main]))
    {name : String} (h : lastSegment name ∈ constructed bases) :
    ∃ d, i.contract? name = some d ∧ IsConverted i main d := by
  obtain ⟨d, hd, hName⟩ := List.mem_map.mp h
  obtain ⟨hBase, hCtor⟩ := List.mem_filter.mp hd
  have hSelf := Index.contract?_of_mem_linearize hMain (List.mem_append_left _ hBase)
  rw [hName, Index.contract?_lastSegment] at hSelf
  exact ⟨d, hSelf, (Index.mem_bases_iff hMain).mp hBase, hCtor⟩

/-- A planned constructor is written if it calls for a converted base that is not left to another
contract. -/
theorem isApplied_iff (hMain : i.linearize main.name = .ok (bases ++ [main])) {c d : Contract}
    {own : List Contract} {p : Plan} (hOrder : i.linearize c.name = .ok (own ++ [d]))
    (h : affectedPlan i (affectedBy i (bases ++ [main])) (convertedNames (bases ++ [main])) c
      (own ++ [d]) = .ok p) :
    p.report.isApplied = true ↔ ∃ base, IsConverted i main base ∧ TransGen i.Extends d base ∧
      ∀ e, TransGen i.Extends d e → IsOther i main e → ¬ TransGen i.Extends e base := by
  obtain ⟨q, hPlan, _, _, _, hIsApplied⟩ := plan_of_affectedPlan h
  obtain ⟨_, hChain, calls, hCalls, hText, _⟩ := initializers_of_plan hPlan
  obtain hSame : own ++ [d] = q.chain := Except.ok.inj (hOrder.symm.trans hChain)
  have hOwn := Index.linearize_last hOrder
  rw [← hSame, List.dropLast_concat, constructorsOf_filter] at hCalls
  have hCovered {b : Contract} (hb : b ∈ own) (hConverted : IsConverted i main b) :=
    mem_coveredBases_iff hMain hOwn
      (Index.contract?_of_mem_linearize hOwn (List.mem_append_left _ hb)) hConverted
  have hNames {b : Contract} (hb : b ∈ own) := mem_convertedNames_iff hMain
    (Index.contract?_of_mem_linearize hOwn (List.mem_append_left _ hb))
  have hApplied : p.report.isApplied = true ↔ ∃ x, x ∈ calls.map Initialization.source := by
    rw [hIsApplied, hText]
    cases calls <;> simp
  rw [hApplied, hCalls]
  simp only [List.mem_filter, isLeftTo, Bool.and_eq_true, List.contains_iff_mem, Bool.not_eq_true',
    Bool.eq_false_iff, ne_eq]
  constructor
  · rintro ⟨x, hx, hName, hOpen⟩
    have hBase := (mem_constructorsOf_iff.mp hx).1
    have hConverted := (hNames hBase).mp hName
    rw [hCovered hBase hConverted] at hOpen
    exact ⟨x.1, hConverted, (Index.mem_bases_iff hOwn).mp hBase,
      fun e hPath hIs hTo => hOpen ⟨e, hPath, hIs, hTo⟩⟩
  · rintro ⟨base, hConverted, hPath, hOpen⟩
    have hBase := (Index.mem_bases_iff hOwn).mpr hPath
    obtain ⟨f, hf⟩ := Option.isSome_iff_exists.mp hConverted.2
    refine ⟨(base, f), mem_constructorsOf_iff.mpr ⟨hBase, hf⟩, (hNames hBase).mpr hConverted, ?_⟩
    rw [hCovered hBase hConverted]
    rintro ⟨e, hTo, hIs, hFrom⟩
    exact hOpen e hTo hIs hFrom

/-- The contracts besides the main one whose constructors are written anew. -/
theorem mem_applied_iff (hMain : i.linearize main.name = .ok (bases ++ [main])) {plans : List Plan}
    (hPlans : (affectedContracts i main (bases ++ [main])).mapM (fun x =>
      affectedPlan i (affectedBy i (bases ++ [main])) (convertedNames (bases ++ [main])) x.1 x.2) =
        .ok plans) {c : Contract} :
    c ∈ (plans.filter fun p => p.report.isApplied).map Plan.contract ↔
      c ∈ i.contracts ∧ ∃ d, GetsCallsOf i main c d := by
  have hOutside (name : String) : name ∉ (bases ++ [main]).map Contract.name ↔
      ∀ x, ReflTransGen i.Extends main x → x.name ≠ name := by
    rw [List.mem_map]
    simp only [Index.mem_linearize_iff hMain (Index.contract?_of_linearize hMain), not_exists, not_and]
  constructor
  · intro hc
    obtain ⟨p, hp, rfl⟩ := List.mem_map.mp hc
    obtain ⟨hp, hApplied⟩ := List.mem_filter.mp hp
    obtain ⟨⟨c, chain⟩, hTarget, hOk⟩ := Outcome.exists_of_mem_result hPlans hp
    rw [contract_of_affectedPlan hOk]
    obtain ⟨hMem, hConcrete, _, hLookup⟩ := mem_affectedContracts_iff.mp hTarget
    obtain ⟨_, hNew, hOrder, _⟩ := mem_affectedBy_iff.mp (lookup_affectedBy.mp hLookup)
    obtain ⟨d, own, _, rfl⟩ := Index.linearize_eq_append hOrder
    exact ⟨hMem, d, hConcrete, (hOutside _).mp hNew, ⟨own, hOrder⟩,
      (isApplied_iff hMain hOrder hOk).mp hApplied⟩
  · rintro ⟨hMem, d, hConcrete, hNew, ⟨own, hOrder⟩, hCalls⟩
    obtain ⟨base, hConverted, hPath, _⟩ := id hCalls
    have hOwn := Index.linearize_last hOrder
    have hBase : base ∈ own := (Index.mem_bases_iff hOwn).mpr hPath
    have hName : base.name ∈ convertedNames (bases ++ [main]) :=
      (mem_convertedNames_iff hMain
        (Index.contract?_of_mem_linearize hOwn (List.mem_append_left _ hBase))).mpr hConverted
    have hLookup : (affectedBy i (bases ++ [main])).lookup c.name = some (own ++ [d]) := by
      rw [lookup_affectedBy, mem_affectedBy_iff, List.dropLast_concat]
      exact ⟨⟨c, hMem, rfl, hConcrete⟩, (hOutside _).mpr hNew, hOrder, base, hBase, hName⟩
    have hTarget : (c, own ++ [d]) ∈ affectedContracts i main (bases ++ [main]) :=
      mem_affectedContracts_iff.mpr ⟨hMem, hConcrete, (hNew main .refl).symm, hLookup⟩
    obtain ⟨p, hp, hOk⟩ := Outcome.exists_result_of_mem hPlans hTarget
    exact List.mem_map.mpr ⟨p, List.mem_filter.mpr ⟨hp, (isApplied_iff hMain hOrder hOk).mpr hCalls⟩,
      contract_of_affectedPlan hOk⟩

/-- Nothing that is touched starts where its contract starts. -/
theorem start_lt_of_touched (hSpans : i.unit.SpansFit i.text) {rewritten : List Contract}
    {x : Contract × Span} (hc : x.1 ∈ i.contracts) (hx : x ∈ touched i bases rewritten) :
    x.1.span.start < x.2.start := by
  have hContract := hSpans.contracts x.1 hc
  have hBody := hContract.body.2
  simp only [Span.encloses, Bool.and_eq_true, decide_eq_true_eq] at hBody
  rcases cases_of_touched hx with hArgument | ⟨f, hf, m, hm, hName, hSpan⟩ | ⟨_, hMerge⟩
  · obtain ⟨b, hb, hArgs⟩ := List.mem_filterMap.mp hArgument
    obtain ⟨hBase, hIn, _⟩ := hContract.bases b (List.mem_of_mem_filter hb)
    obtain ⟨_, _, hBefore⟩ := hBase.args _ hArgs
    have hNamed := hBase.name
    simp only [Span.encloses, Bool.and_eq_true, decide_eq_true_eq] at hIn hNamed
    have := hBefore.1
    omega
  · have hModifier : x.2 ∈ modifierSpans (constructed bases) x.1 := by
      simp only [modifierSpans, hf, Option.map_some, Option.getD_some]
      rw [hSpan]
      exact List.mem_map_of_mem (List.mem_filter.mpr ⟨hm, List.contains_iff_mem.mpr hName⟩)
    have := (modifierSpans_fit hContract _ hModifier).2.2
    omega
  · have := (mergeSpans_fit hContract hMerge).2.2
    omega

/-- A span that is touched in a contract has nothing in common with another contract. -/
theorem eq_of_touches (hSpans : i.unit.SpansFit i.text) {c d : Contract} {s : Span}
    (hc : c ∈ i.contracts) (hd : d ∈ i.contracts) (hStart : c.span.start < s.start)
    (hIn : Inside c s) (hTouches : s.Touches d.span) : d = c := by
  by_contra hNe
  have hDisjoint := disjoint_of_ne hSpans hd hc hNe
  unfold Span.Disjoint Span.Before at hDisjoint
  unfold Span.Touches at hTouches
  unfold Inside at hIn
  omega

/-- Whatever is touched in a contract stands at one of the places that may change. -/
theorem place_of_touched (hSpans : i.unit.SpansFit i.text)
    (hMain : i.linearize main.name = .ok (bases ++ [main])) {rewritten : List Contract}
    {x : Contract × Span} (hc : x.1 ∈ i.contracts) (hx : x ∈ touched i bases rewritten) :
    Place i main x.1 x.2 := by
  have hContract := hSpans.contracts x.1 hc
  rcases cases_of_touched hx with hArgument | ⟨f, hf, m, hm, _, hSpan⟩ | ⟨_, hMerge⟩
  · obtain ⟨b, hb, hArgs⟩ := List.mem_filterMap.mp hArgument
    obtain ⟨hBase, hName⟩ := List.mem_filter.mp hb
    obtain ⟨d, hNamed, hConverted⟩ := exists_converted_of_mem hMain (List.contains_iff_mem.mp hName)
    exact .arguments hBase hNamed hConverted hArgs
  · obtain ⟨body, hBody, hFunction, _⟩ := body_of_constructor hContract hf
    have hIn := (hFunction.modifiers m hm).2
    have hBefore := (hFunction.body body hBody).2.2 m hm
    refine .header hf ?_
    simp only [Span.encloses, Bool.and_eq_true, decide_eq_true_eq, headerSpan, bodyStart_eq hBody,
      hSpan] at hIn ⊢
    exact ⟨hIn.1, hBefore.2⟩
  · unfold mergeSpans at hMerge
    cases hf : x.1.constructor? with
    | none =>
        simp only [hf, List.mem_singleton] at hMerge
        rw [hMerge]
        exact .contractBody hf
    | some f =>
        obtain ⟨body, hBody, _⟩ := body_of_constructor hContract hf
        simp only [hf] at hMerge
        rcases List.mem_pair.mp hMerge with hHeader | hPoint
        · exact .header hf (by simp [hHeader, Span.encloses])
        · rw [hPoint, bodyStart_eq hBody]
          exact .constructorBody hf hBody

/-- A contract that has nothing to do with a merge is touched only if its constructor is written. -/
theorem mem_rewritten_of_touched (hHeaders : HeadersInherit i)
    (hMain : i.linearize main.name = .ok (bases ++ [main])) {affected : List Contract}
    {x : Contract × Span} (hc : x.1 ∈ i.contracts) (hx : x ∈ touched i bases (main :: affected))
    (hUnrelated : ¬ IsRelated i main x.1) : x.1 ∈ affected := by
  have hChain {c : Contract} := Index.mem_linearize_iff (d := c) hMain (Index.contract?_of_linearize hMain)
  rcases cases_of_touched hx with hArgument | ⟨f, hf, m, hm, hName, _⟩ | ⟨hChanged, _⟩
  · obtain ⟨b, hb, _⟩ := List.mem_filterMap.mp hArgument
    obtain ⟨hBase, hName⟩ := List.mem_filter.mp hb
    obtain ⟨d, hNamed, hConverted⟩ := exists_converted_of_mem hMain (List.contains_iff_mem.mp hName)
    exact absurd (.inr ⟨d, .single ⟨b, hBase, hNamed⟩, hConverted⟩) hUnrelated
  · obtain ⟨d, hNamed, hConverted⟩ := exists_converted_of_mem hMain hName
    exact absurd (.inr ⟨d, hHeaders x.1 hc f hf m hm d hNamed, hConverted⟩) hUnrelated
  · rcases hChanged with hBase | hRewritten
    · exact absurd (.inl (hChain.mp (List.mem_append_left _ hBase))) hUnrelated
    · rcases List.mem_cons.mp hRewritten with hSame | hAffected
      · exact absurd (.inl (hSame ▸ .refl)) hUnrelated
      · exact hAffected

/-- A plan says that a merge is needed exactly when an inherited constructor takes parameters. -/
theorem isNeeded_iff {isInitialized : Contract → Bool} {p : Plan}
    (hMain : i.linearize main.name = .ok (bases ++ [main]))
    (hPlan : plan i main isInitialized = .ok p) : p.report.isNeeded = true ↔ IsNeeded i main := by
  obtain ⟨chain, hChain, hPlan⟩ := Outcome.bind_eq_ok_iff.mp hPlan
  obtain ⟨bindings, _, rfl⟩ := Outcome.bind_pure_eq_ok_iff.mp hPlan
  obtain rfl : bases ++ [main] = chain := Except.ok.inj (hMain.symm.trans hChain)
  simp only [List.dropLast_concat, List.any_eq_true, Index.mem_bases_iff hMain, IsNeeded,
    Bool.not_eq_true', List.isEmpty_eq_false_iff, ne_eq]

/-- A merge changes nothing, or it touches the headers of converted constructors, what is taken away,
and the constructors of the main contract and of those that get calls. -/
theorem touched_of_merge {name : String} {edits : List Edit} {reports : List Report}
    (h : merge i name = .ok (edits, reports)) :
    ∃ main bases, i.contract? name = some main ∧ i.linearize main.name = .ok (bases ++ [main]) ∧
      ((¬ IsNeeded i main ∧ edits = []) ∨
        (IsNeeded i main ∧ ∃ affected : List Contract,
          (∀ c, c ∈ affected ↔ c ∈ i.contracts ∧ ∃ d, GetsCallsOf i main c d) ∧
          edits.map Edit.span = (touched i bases (main :: affected)).map Prod.snd)) := by
  obtain ⟨main, hFound, hRest⟩ := Outcome.bind_eq_ok_iff.mp h
  rw [Index.contract_eq_ok_iff] at hFound
  obtain ⟨p, hPlan, hMerge⟩ := Outcome.bind_eq_ok_iff.mp hRest
  obtain ⟨bases, _, hPlanned⟩ := isPlanned_of_self hPlan (Index.contract?_name hFound)
  obtain rfl := hPlanned.subject
  refine ⟨p.contract, bases, hFound, hPlanned.order, ?_⟩
  rw [← isNeeded_iff hPlanned.order hPlan]
  split at hMerge
  · rename_i hNeeded
    obtain ⟨plans, _, _, _, _, hPlans, _⟩ := mergeFor_eq_ok hMerge
    have hSpans := spans_of_mergeFor hMerge hPlans
    rw [hPlanned.chain] at hPlans
    rw [hPlanned.chain, List.dropLast_concat] at hSpans
    exact .inr ⟨hNeeded, _, fun c => mem_applied_iff hPlanned.order hPlans, hSpans⟩
  · rename_i hNot
    exact .inl ⟨hNot, (Prod.mk.inj (Except.ok.inj hMerge)).1.symm⟩

end

/-- Every edit of a merge touches one contract only, at a constructor's header, at the arguments of a
converted base, or behind the brace of the constructor's body or, without a constructor, of the
contract's. A contract that is not in the order of the main one and inherits no converted base is
touched exactly if constructors are merged and it gets the calls of another contract of its name. -/
theorem unrelated_touched_iff {i : Index} {name : String} {edits : List Edit} {reports : List Report}
    (hSpans : i.unit.SpansFit i.text) (hHeaders : HeadersInherit i)
    (h : merge i name = .ok (edits, reports)) :
    ∃ main, i.contract? name = some main ∧
      (∀ e ∈ edits, ∃ c ∈ i.contracts, e.span.Touches c.span ∧ Place i main c e.span ∧
        ∀ d ∈ i.contracts, e.span.Touches d.span → d = c) ∧
      ∀ c ∈ i.contracts, ¬ IsRelated i main c →
        ((∃ e ∈ edits, e.span.Touches c.span) ↔
          IsNeeded i main ∧ ∃ d, d ≠ c ∧ GetsCallsOf i main c d) := by
  obtain ⟨main, bases, hFound, hOrder, hCases⟩ := touched_of_merge h
  refine ⟨main, hFound, ?_⟩
  rcases hCases with ⟨hNot, rfl⟩ | ⟨hNeeded, affected, hAffected, hEdits⟩
  · exact ⟨by simp, fun c _ _ => by simp [hNot]⟩
  have hBases : bases ⊆ i.contracts := fun b hb =>
    Index.mem_contracts_of_contract?
      (Index.contract?_of_mem_linearize hOrder (List.mem_append_left _ hb))
  have hRewritten : main :: affected ⊆ i.contracts :=
    List.cons_subset.mpr ⟨Index.mem_contracts_of_contract? hFound, fun c hc => ((hAffected c).mp hc).1⟩
  have hOwned {x : Contract × Span} (hx : x ∈ touched i bases (main :: affected)) :
      x.1 ∈ i.contracts ∧ x.2.Touches x.1.span ∧
        ∀ d ∈ i.contracts, x.2.Touches d.span → d = x.1 := by
    obtain ⟨hc, hIn, _⟩ := mem_touched hSpans hBases hRewritten hx
    have hStart := start_lt_of_touched hSpans hc hx
    refine ⟨hc, ⟨?_, ?_⟩, fun d hd => eq_of_touches hSpans hc hd hStart hIn⟩ <;>
      unfold Inside at hIn <;> omega
  have hOwner {e : Edit} (he : e ∈ edits) :
      ∃ c, (c, e.span) ∈ touched i bases (main :: affected) := by
    have hSpan : e.span ∈ (touched i bases (main :: affected)).map Prod.snd :=
      hEdits ▸ List.mem_map_of_mem he
    obtain ⟨⟨c, s⟩, hx, rfl⟩ := List.mem_map.mp hSpan
    exact ⟨c, hx⟩
  refine ⟨fun e he => ?_, fun c hc hUnrelated => ⟨?_, ?_⟩⟩
  · obtain ⟨c, hx⟩ := hOwner he
    obtain ⟨hc, hTouches, hOnly⟩ := hOwned hx
    exact ⟨c, hc, hTouches, place_of_touched hSpans hOrder hc hx, hOnly⟩
  · rintro ⟨e, he, hTouches⟩
    obtain ⟨owner, hx⟩ := hOwner he
    obtain ⟨hOwnerMem, _, hOnly⟩ := hOwned hx
    obtain rfl : c = owner := hOnly c hc hTouches
    have hMem := mem_rewritten_of_touched hHeaders hOrder hc hx hUnrelated
    obtain ⟨_, d, hCalls⟩ := (hAffected c).mp hMem
    refine ⟨hNeeded, d, ?_, hCalls⟩
    rintro rfl
    obtain ⟨_, _, _, base, hConverted, hPath, _⟩ := hCalls
    exact hUnrelated (.inr ⟨base, hPath, hConverted⟩)
  · rintro ⟨_, d, _, hCalls⟩
    have hMem := (hAffected c).mpr ⟨hc, d, hCalls⟩
    obtain ⟨s, hs⟩ : ∃ s, s ∈ mergeSpans c := by
      unfold mergeSpans
      split <;> exact ⟨_, List.mem_cons_self⟩
    have hx : (c, s) ∈ touched i bases (main :: affected) :=
      List.mem_append_right _
        (List.mem_flatMap.mpr ⟨c, List.mem_cons_of_mem _ hMem, List.mem_map_of_mem hs⟩)
    have hSpan : s ∈ edits.map Edit.span := hEdits ▸ List.mem_map_of_mem (f := Prod.snd) hx
    obtain ⟨e, he, rfl⟩ := List.mem_map.mp hSpan
    exact ⟨e, he, (hOwned hx).2.1⟩

/-- The name `D` stands for the first of two contracts, and the second has nothing to do with the
main contract `B` and its base. -/
def namesakes : Index :=
  indexOf ("contract A \x7b constructor(uint x) \x7b\x7d \x7d contract B is A(1) \x7b\x7d " ++
    "contract D is A(2) \x7b\x7d contract D \x7b\x7d")

/-- The second `D` gets the constructor of the first. -/
theorem namesake_touched : ∃ edits reports main c, merge namesakes "B" = .ok (edits, reports) ∧
    namesakes.unit.SpansFit namesakes.text ∧ HeadersInherit namesakes ∧
    namesakes.contract? "B" = some main ∧ c ∈ namesakes.contracts ∧ c.name = "D" ∧ c.bases = [] ∧
    ¬ IsRelated namesakes main c ∧
    (∃ e ∈ edits, e.span.Touches c.span ∧
      e.replacement = "\n    constructor() \x7b\n        __constructor_A(2);\n    \x7d\n") ∧
    ∃ d, d ≠ c ∧ GetsCallsOf namesakes main c d := by
  have hFacts : ∃ c, c ∈ namesakes.contracts ∧ c.name = "D" ∧ c.bases = [] ∧
      (merge namesakes "B").map (fun r => decide (∃ e ∈ r.1, e.span.Touches c.span ∧
        e.replacement = "\n    constructor() \x7b\n        __constructor_A(2);\n    \x7d\n")) =
          .ok true := by
    refine ⟨namesakes.contracts.getLast?.getD default, ?_⟩
    decide +kernel
  have hSpans : namesakes.unit.SpansFit namesakes.text := by decide +kernel
  have hChain : (namesakes.linearize "B").map (fun chain => chain.map Contract.name) =
      .ok ["A", "B"] := by decide +kernel
  have hNone : ∀ c ∈ namesakes.contracts, ∀ f ∈ c.functions, f.modifiers = [] := by decide +kernel
  have hHeaders : HeadersInherit namesakes := by
    intro c hc f hf m hm
    rw [hNone c hc f (List.mem_of_find?_eq_some hf)] at hm
    cases hm
  obtain ⟨c, hc, hName, hBases, hEdit⟩ := hFacts
  obtain ⟨⟨edits, reports⟩, hMerge, hEdit⟩ := Outcome.map_eq_ok_iff.mp hEdit
  obtain ⟨chain, hOrder, hNames⟩ := Outcome.map_eq_ok_iff.mp hChain
  obtain ⟨main, hFound, _, hIff⟩ := unrelated_touched_iff hSpans hHeaders hMerge
  have hUnrelated : ¬ IsRelated namesakes main c := by
    rintro (hPath | ⟨b, hPath, _⟩)
    · have hMem := List.mem_map_of_mem (f := Contract.name)
        ((Index.mem_linearize_iff hOrder hFound).mpr hPath)
      rw [hNames, hName] at hMem
      exact absurd hMem (by decide)
    · obtain ⟨_, ⟨base, hBase, _⟩, _⟩ := TransGen.head'_iff.mp hPath
      rw [hBases] at hBase
      cases hBase
  obtain ⟨e, he, hTouches, hText⟩ := of_decide_eq_true hEdit
  have hCalls := ((hIff c hc hUnrelated).mp ⟨e, he, hTouches⟩).2
  exact ⟨edits, reports, main, c, hMerge, hSpans, hHeaders, hFound, hc, hName, hBases, hUnrelated,
    ⟨e, he, hTouches, hText⟩, hCalls⟩

end Construction

end SolNorm
