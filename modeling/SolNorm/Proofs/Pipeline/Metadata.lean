import SolNorm.Proofs.Analysis.Shadowing
import SolNorm.Proofs.Pipeline.Headers
import SolNorm.Proofs.Pipeline.Sync

/-!
Which version of a source the metadata of a run is about. The functions that use a variable are those of
the text that is handed out. The functions that declare addresses are those of an earlier version: the
one before constructors are merged and new names are given. So an entry for addresses can name a
definition that the text no longer has. The main statement says of both which definitions are named, and
what the two steps in between make of the text of each definition.
-/

namespace SolNorm

open Outline

namespace AddressUsage

/-- The entries are for the definitions that declare addresses. -/
theorem mem_all_iff {i : Index} {u : AddressUsage} :
    u ∈ all i ↔ ∃ c f, (c, f) ∈ i.unit.definitions ∧ declared i f ≠ [] ∧
      u = ⟨c.name, f.signature, declared i f⟩ := by
  simp only [all, List.mem_filter, List.mem_flatMap, List.mem_map, Outline.mem_definitions_iff,
    Bool.not_eq_true', List.isEmpty_eq_false_iff]
  constructor
  · rintro ⟨⟨c, hc, f, hf, rfl⟩, hDeclared⟩
    exact ⟨c, f, ⟨hc, hf⟩, hDeclared, rfl⟩
  · rintro ⟨c, f, ⟨hc, hf⟩, hDeclared, rfl⟩
    exact ⟨⟨c, hc, f, hf, rfl⟩, hDeclared⟩

end AddressUsage

/-- Without new names no call has to follow one. -/
theorem CallSite.edits_nil (i : Index) : edits i [] = [] := by
  refine List.filterMap_eq_nil_iff.mpr fun (c, call) _ => ?_
  dsimp only [edit?]
  split <;> rfl

/-- One version of a source becomes another by edits, and stays what it is without any. -/
structure Index.Revises (edits : List Edit) (i j : Index) : Prop where
  text : Edit.splice? i.text.toList (Text.byteSize i.text.toList) 0 (edits.mergeSort Edit.inOrder) =
    some j.text.toList
  same : edits = [] → j = i

/-- Applying what is staged leads from one version to the next. -/
theorem State.revises_of_commit {s next : State} {parser : Parser} {pass : String}
    {before after : List String} (h : (s.commit parser pass).Gives before next after) {i : Index}
    (hIndex : s.currentIndex = .ok i) (hText : i.text = s.source.text)
    (hEdits : Edit.Compatible s.work.batch.edits) :
    ∃ j, next.currentIndex = .ok j ∧ i.Revises s.work.batch.edits j ∧
      j.text = next.source.text ∧ next.work = { s.work with batch := .empty } := by
  cases hEmpty : s.work.batch.isEmpty with
  | true =>
      rw [State.commit_of_isEmpty _ _ hEmpty, Run.gives_pure_iff] at h
      obtain ⟨rfl, rfl⟩ := h
      have hSplice := Batch.splice?_of_commit hEdits (Batch.commit_of_isEmpty hEmpty s.source)
      refine ⟨i, hIndex, ⟨hText ▸ hSplice, fun _ => rfl⟩, hText, ?_⟩
      rw [← Batch.eq_empty_of_isEmpty hEmpty]
  | false =>
      obtain ⟨source, unit, hCommit, _, rfl, _⟩ := (State.gives_commit_iff hEmpty).mp h
      refine ⟨.ofSource source unit, ?_, ⟨?_, fun hNil => ?_⟩, rfl, rfl⟩
      · show (if source.version = source.version then _ else _) = _
        rw [if_pos rfl]
      · rw [hText]
        exact Batch.splice?_of_commit hEdits hCommit
      · rw [Batch.isEmpty, hNil] at hEmpty
        cases hEmpty

/-- What is read from a text is where its outline says. -/
def Parser.Places (p : Parser) : Prop :=
  ∀ asked text unit, p.parse asked text = .ok unit → unit.Placed text

/-- A parser over trees that fit places everything. -/
theorem Parser.places_ofTrees {treeOf : String → Except String Tree.Node}
    (h : ∀ text, Tree.Fits treeOf text) : (Parser.ofTrees treeOf).Places := by
  intro asked text unit hParse
  obtain ⟨root, hRoot, hComplete, rfl⟩ := Outline.parseWith_eq_ok_iff.mp hParse
  exact Outline.ofTree_placed (h text root hRoot hComplete)

namespace Pipeline

variable {c : Context} {text : String}

/-- The version that a run has come to after some of its passes, as the parser has read it. -/
structure VersionAfter (c : Context) (text : String) (done : Pipeline) (i : Index) : Prop where
  reached : ∃ s asked, (done.reach c text).Gives [] s asked ∧ s.currentIndex = .ok i
  parsed : ∃ before, c.parser.parse before i.text = .ok i.unit

/-- Every version that was parsed is placed if the parser places what it accepts. -/
theorem VersionAfter.placed {done : Pipeline} {i : Index} (h : VersionAfter c text done i)
    (hParser : c.parser.Places) : i.unit.Placed i.text := by
  obtain ⟨before, hParse⟩ := h.parsed
  exact hParser before i.text i.unit hParse

/-- A run comes from the state after some passes to the state after one more. -/
theorem gives_reach_take_iff {p : Pipeline} {n : Nat} {step : Step} (hStep : p[n]? = some step)
    {next : State} {after : List String} :
    (reach (p.take (n + 1)) c text).Gives [] next after ↔
      ∃ s asked, (reach (p.take n) c text).Gives [] s asked ∧
        (step.run c s).Gives asked next after := by
  rw [List.take_add_one, hStep, Option.toList_some, reach_concat, Run.gives_bind_iff]

/-- After every step there is an index of the current version. -/
theorem currentIndex_of_reach {done : Pipeline} {s : State} {asked : List String}
    (h : (done.reach c text).Gives [] s asked) :
    ∃ i, s.currentIndex = .ok i ∧ i.text = s.source.text ∧ VersionAfter c text done i := by
  obtain ⟨log, hReaches⟩ := gives_reach_iff.mp h
  obtain ⟨i, answer, _, hIndex, _, hText, hUnit, _, hAnswer, hParse⟩ := hReaches.inSync.indexed
  rw [hAnswer, ← hText, ← hUnit] at hParse
  exact ⟨i, hIndex, hText, ⟨s, asked, h, hIndex⟩, answer.before, hParse⟩

theorem versionAfter_of_reach {done : Pipeline} {s : State} {asked : List String} {i : Index}
    (h : (done.reach c text).Gives [] s asked) (hIndex : s.currentIndex = .ok i) :
    VersionAfter c text done i := by
  obtain ⟨j, hj, _, hVersion⟩ := currentIndex_of_reach h
  obtain rfl := Except.ok.inj (hIndex.symm.trans hj)
  exact hVersion

section

variable {s next : State} {i : Index} {asked after : List String}

/-- A pass that needs the index is given the one of the current version. -/
theorem gives_step_iff {name description : String} {isBarrier : Bool}
    {run : Context → Index → Work → Except Error Work} (hIndex : s.currentIndex = .ok i) :
    ((⟨⟨name, description, fun c => Pass.ofIndex (run c) c⟩, isBarrier⟩ : Step).run c s).Gives
        asked next after ↔
      ∃ work, run c i s.work = .ok work ∧
        Run.Gives (if isBarrier then State.commit { s with work } c.parser name
          else pure { s with work }) asked next after := by
  have hPass {work : Work} {middle : List String} :
      (Run.within name (Pass.ofIndex (run c) c s)).Gives asked work middle ↔
        run c i s.work = .ok work ∧ asked = middle := by
    rw [Run.gives_within_iff, Pass.ofIndex, hIndex, Run.ofExcept_ok, pure_bind,
      Run.gives_ofExcept_iff]
  unfold Step.run
  rw [Run.gives_bind_iff]
  constructor
  · rintro ⟨work, middle, hWork, hNext⟩
    obtain ⟨hRun, rfl⟩ := hPass.mp hWork
    exact ⟨work, hRun, hNext⟩
  · rintro ⟨work, hRun, hNext⟩
    exact ⟨work, asked, hPass.mpr ⟨hRun, rfl⟩, hNext⟩

/-- A pass that records what it finds changes nothing else. -/
theorem work_of_finding {name description : String} {find : Index → Work → Work}
    (hIndex : s.currentIndex = .ok i)
    (h : ((⟨⟨name, description, Pass.ofIndex fun i w => .ok (find i w)⟩, false⟩ : Step).run c s).Gives
      asked next after) :
    next.currentIndex = .ok i ∧ next.source = s.source ∧ next.work = find i s.work := by
  obtain ⟨work, hWork, hNext⟩ := (gives_step_iff hIndex).mp h
  obtain rfl := Except.ok.inj hWork
  obtain ⟨rfl, _⟩ := Run.gives_pure_iff.mp hNext
  exact ⟨hIndex, rfl, rfl⟩

/-- Nothing is staged after a barrier. -/
theorem batch_of_barrier {pass : Pass}
    (h : ((⟨pass, true⟩ : Step).run c s).Gives asked next after) : next.work.batch = .empty := by
  obtain ⟨work, _, _, hNext⟩ := Run.gives_bind_iff.mp h
  rw [if_pos rfl] at hNext
  cases hEmpty : work.batch.isEmpty with
  | true =>
      rw [State.commit_of_isEmpty _ _ hEmpty, Run.gives_pure_iff] at hNext
      rw [← hNext.1]
      exact Batch.eq_empty_of_isEmpty hEmpty
  | false =>
      obtain ⟨source, unit, _, _, rfl, _⟩ := (State.gives_commit_iff hEmpty).mp hNext
      rfl

/-- The step that merges constructors. -/
theorem work_of_constructor (hIndex : s.currentIndex = .ok i) (hText : i.text = s.source.text)
    (hBatch : s.work.batch = .empty)
    (h : ((⟨.constructor, true⟩ : Step).run c s).Gives asked next after) :
    ∃ edits reports j, Construction.merge i c.mainContract = .ok (edits, reports) ∧
      next.currentIndex = .ok j ∧ i.Revises edits j ∧ j.text = next.source.text ∧
      next.work = { s.work with
        metadata := { s.work.metadata with constructors := reports } } := by
  obtain ⟨work, hWork, hNext⟩ := (gives_step_iff hIndex).mp h
  obtain ⟨⟨edits, reports⟩, hMerge, hWork⟩ := Outcome.bind_eq_ok_iff.mp hWork
  obtain ⟨staged, hStaged, rfl⟩ := Outcome.bind_pure_eq_ok_iff.mp hWork
  obtain ⟨batch, hAll, rfl⟩ := Outcome.bind_pure_eq_ok_iff.mp hStaged
  rw [hBatch] at hAll
  obtain ⟨hEdits, rfl⟩ := Batch.stageAll_empty.mp hAll
  rw [if_pos rfl] at hNext
  obtain ⟨j, hj, hRevises, hSource, hLeft⟩ := State.revises_of_commit hNext hIndex hText hEdits
  refine ⟨edits, reports, j, hMerge, hj, hRevises, hSource, ?_⟩
  rw [hLeft, ← hBatch]

/-- The step that gives new names. -/
theorem work_of_selectors (hIndex : s.currentIndex = .ok i) (hBatch : s.work.batch = .empty)
    (h : ((⟨.selectors, false⟩ : Step).run c s).Gives asked next after) :
    ∃ marking, Collision.separateAll Selector.ofText i = .ok marking ∧
      Edit.Compatible (Collision.renameEdits marking.renames) ∧
      next.currentIndex = .ok i ∧ next.source = s.source ∧
      next.work = { s.work with
        batch := ⟨Collision.renameEdits marking.renames⟩
        metadata := { s.work.metadata with marking } } := by
  obtain ⟨work, hWork, hNext⟩ := (gives_step_iff hIndex).mp h
  obtain ⟨marking, hMarking, hWork⟩ := Outcome.bind_eq_ok_iff.mp hWork
  obtain ⟨staged, hStaged, rfl⟩ := Outcome.bind_pure_eq_ok_iff.mp hWork
  obtain ⟨batch, hAll, rfl⟩ := Outcome.bind_pure_eq_ok_iff.mp hStaged
  rw [hBatch] at hAll
  obtain ⟨hEdits, rfl⟩ := Batch.stageAll_empty.mp hAll
  obtain ⟨rfl, _⟩ := Run.gives_pure_iff.mp hNext
  exact ⟨marking, hMarking, hEdits, hIndex, rfl, rfl⟩

/-- The step that lets calls follow the new names. -/
theorem work_of_functionCalls (hIndex : s.currentIndex = .ok i) (hText : i.text = s.source.text)
    (hEdits : Edit.Compatible s.work.batch.edits)
    (h : ((⟨.functionCalls, true⟩ : Step).run c s).Gives asked next after) :
    ∃ j, next.currentIndex = .ok j ∧
      i.Revises (s.work.batch.edits ++ CallSite.edits i s.work.metadata.marking.renames) j ∧
      j.text = next.source.text ∧ next.work.metadata = s.work.metadata := by
  obtain ⟨work, hWork, hNext⟩ := (gives_step_iff hIndex).mp h
  obtain ⟨staged, hStaged, rfl⟩ := Outcome.bind_pure_eq_ok_iff.mp hWork
  obtain ⟨batch, hAll, rfl⟩ := Outcome.bind_pure_eq_ok_iff.mp hStaged
  obtain ⟨hCalls, hCross, rfl⟩ := Batch.stageAll_eq_ok_iff.mp hAll
  rw [if_pos rfl] at hNext
  obtain ⟨j, hj, hRevises, hSource, hLeft⟩ :=
    State.revises_of_commit hNext hIndex hText (hEdits.append hCalls hCross)
  exact ⟨j, hj, hRevises, hSource, by rw [hLeft]⟩

end

/-- The versions that the metadata of a run is about. Addresses are looked for before constructors are
merged and new names are given, and variables after that. -/
structure Course (c : Context) (output : Output) (seen merged last : Index) : Prop where
  addresses : output.metadata.addressFunctions = AddressUsage.all seen
  merges : ∃ edits, Construction.merge seen c.mainContract =
      .ok (edits, output.metadata.constructors) ∧ seen.Revises edits merged
  renames : Collision.separateAll Selector.ofText merged = .ok output.metadata.marking ∧
    merged.Revises (Collision.renameEdits output.metadata.marking.renames ++
      CallSite.edits merged output.metadata.marking.renames) last
  storage : output.metadata.storage = StorageMap.ofIndex last
  returned : output.source = last.text

/-- A run of the standard passes sees three versions that count: before the merge, after it, and the
last one. -/
theorem course_of_run {output : Output} {asked : List String}
    (h : (standard.run c text).Gives [] output asked) :
    ∃ seen merged last, VersionAfter c text (standard.take 2) seen ∧
      VersionAfter c text (standard.take 4) merged ∧ VersionAfter c text standard last ∧
      Course c output seen merged last := by
  rw [run_eq, Run.gives_bind_iff] at h
  obtain ⟨s₇, _, hAll, hFinish⟩ := h
  obtain ⟨s₆, _, hReach₆, hStorage⟩ :=
    (gives_reach_take_iff (p := standard) (n := 6) rfl).mp hAll
  obtain ⟨s₅, _, hReach₅, hCalls⟩ := (gives_reach_take_iff rfl).mp hReach₆
  obtain ⟨s₄, _, hReach₄, hSelectors⟩ := (gives_reach_take_iff rfl).mp hReach₅
  obtain ⟨s₃, _, hReach₃, hConstructor⟩ := (gives_reach_take_iff rfl).mp hReach₄
  obtain ⟨s₂, _, hReach₂, hAddresses⟩ := (gives_reach_take_iff rfl).mp hReach₃
  obtain ⟨_, _, _, hImports⟩ := (gives_reach_take_iff rfl).mp hReach₂
  obtain ⟨seen, hSeen, hSeenText, hVersion⟩ := currentIndex_of_reach hReach₂
  have hBatch₂ := batch_of_barrier hImports
  obtain ⟨hSeen₃, hSource₃, hWork₃⟩ := work_of_finding hSeen hAddresses
  have hBatch₃ : s₃.work.batch = .empty := by rw [hWork₃, hBatch₂]
  obtain ⟨edits, reports, merged, hMerge, hMerged, hMerges, hMergedText, hWork₄⟩ :=
    work_of_constructor hSeen₃ (hSource₃ ▸ hSeenText) hBatch₃ hConstructor
  obtain ⟨marking, hMarking, hRenames, hMerged₅, hSource₅, hWork₅⟩ :=
    work_of_selectors hMerged (batch_of_barrier hConstructor) hSelectors
  have hBatch₅ : s₅.work.batch = ⟨Collision.renameEdits marking.renames⟩ := by rw [hWork₅]
  have hMarking₅ : s₅.work.metadata.marking = marking := by rw [hWork₅]
  obtain ⟨last, hLast, hLasts, hLastText, hMetadata₆⟩ :=
    work_of_functionCalls hMerged₅ (hSource₅ ▸ hMergedText) (hBatch₅ ▸ hRenames) hCalls
  rw [hBatch₅, hMarking₅] at hLasts
  obtain ⟨hLast₇, hSource₇, hWork₇⟩ := work_of_finding hLast hStorage
  have hBatch₇ : s₇.work.batch = .empty := by rw [hWork₇, batch_of_barrier hCalls]
  have hMetadata : s₇.work.metadata = ⟨s₂.work.metadata.mainContract, AddressUsage.all seen, reports,
      marking, StorageMap.ofIndex last⟩ := by
    rw [hWork₇, hMetadata₆, hWork₅, hWork₄, hWork₃]
  obtain ⟨final, _, hFinal, hOutput⟩ := Run.gives_bind_iff.mp hFinish
  have hNone : s₇.work.batch.isEmpty = true := by rw [hBatch₇]; rfl
  rw [State.commit_of_isEmpty _ _ hNone, Run.gives_pure_iff] at hFinal
  obtain ⟨rfl, rfl⟩ := hFinal
  obtain ⟨rfl, rfl⟩ := Run.gives_pure_iff.mp hOutput
  refine ⟨seen, merged, last, hVersion, versionAfter_of_reach hReach₄ hMerged,
    versionAfter_of_reach hAll hLast₇, ?_⟩
  rw [hMetadata, hSource₇]
  exact ⟨rfl, ⟨edits, hMerge, hMerges⟩, ⟨hMarking, hLasts⟩, rfl, hLastText.symm⟩

/-- What the metadata of a run says, and about which version of the source. Variables are those of the
text that is handed out. Addresses are those of the version before constructors are merged and new
names are given, and what these two steps make of each definition is said as well. -/
structure Describes (c : Context) (output : Output) (seen merged last : Index) : Prop where
  returned : output.source = last.text
  accesses : ∀ id name, StorageMap.Listed output.metadata.storage.accesses id name ↔
    ∃ d f, (d, f) ∈ last.unit.definitions ∧ name = s!"{d.name}.{f.signature}" ∧
      ∃ b ∈ f.body, ∃ x ∈ b.idents, StorageMap.usedVariable? last d f x.name = some id
  addresses : ∀ u, u ∈ output.metadata.addressFunctions ↔
    ∃ d f, (d, f) ∈ seen.unit.definitions ∧ AddressUsage.declared seen f ≠ [] ∧
      u = ⟨d.name, f.signature, AddressUsage.declared seen f⟩
  merges : ∃ edits, Construction.merge seen c.mainContract =
      .ok (edits, output.metadata.constructors) ∧ seen.Revises edits merged ∧
    (c.parser.Places → ∀ d f, (d, f) ∈ seen.unit.definitions →
      Construction.MergedAs seen edits merged.text.toList d f)
  renames : Collision.separateAll Selector.ofText merged = .ok output.metadata.marking ∧
    merged.Revises (Collision.renameEdits output.metadata.marking.renames ++
      CallSite.edits merged output.metadata.marking.renames) last ∧
    (output.metadata.marking.renames = [] → last = merged) ∧
    (c.parser.Places → ∀ d f, (d, f) ∈ merged.unit.definitions →
      Collision.RenamedAs merged output.metadata.marking.renames last.text.toList f)

/-- Functions in the metadata of a run are definitions of the text that is handed out, if they are listed
for a variable. If they are listed for their addresses, they are definitions of the version before
constructors are merged. That is the same version if nothing is merged and nothing gets a new name. -/
theorem describes_of_run {output : Output} {asked : List String}
    (h : (standard.run c text).Gives [] output asked) :
    ∃ seen merged last, VersionAfter c text (standard.take 2) seen ∧
      VersionAfter c text (standard.take 4) merged ∧ VersionAfter c text standard last ∧
      Describes c output seen merged last := by
  obtain ⟨seen, merged, last, hSeen, hMerged, hLast, hCourse⟩ := course_of_run h
  obtain ⟨edits, hMerge, hMerges⟩ := hCourse.merges
  obtain ⟨hMarking, hRenames⟩ := hCourse.renames
  refine ⟨seen, merged, last, hSeen, hMerged, hLast, hCourse.returned, ?_, ?_,
    ⟨edits, hMerge, hMerges, fun hParser d f hd => ?_⟩, hMarking, hRenames, fun hNone => ?_,
    fun hParser d f hd => ?_⟩
  · rw [hCourse.storage]
    exact fun _ _ => StorageMap.listed_ofIndex_iff
  · rw [hCourse.addresses]
    exact fun _ => AddressUsage.mem_all_iff
  · obtain ⟨hd, hf⟩ := Outline.mem_definitions_iff.mp hd
    exact Construction.mergedAs_of_merge (hSeen.placed hParser) hMerge hMerges.text hd hf
  · refine hRenames.same ?_
    rw [hNone, CallSite.edits_nil]
    rfl
  · obtain ⟨hd, hf⟩ := Outline.mem_definitions_iff.mp hd
    exact Collision.renamedAs_of_placed (hMerged.placed hParser)
      (Collision.placed_of_separateAll hMarking) hRenames.text hd hf

/-- The main contract gives the argument of a constructor that stores an address. -/
def owned : String :=
  "contract A\x7baddress o;constructor(address a)\x7bo=a;\x7d\x7dcontract B is A(msg.sender)\x7b\x7d"

/-- The constructor is a function afterwards. -/
def handed : String :=
  "contract A\x7baddress o;function __constructor_A(address a) internal \x7bo=a;\x7d\x7d" ++
    "contract B is A\x7b\n    constructor() \x7b\n        __constructor_A(msg.sender);\n    \x7d\n\x7d"

/-- The tree of a text if it fits. -/
def checkedTree (text : String) : Except String Tree.Node :=
  if (Tree.read text).IsFile text then .ok (Tree.read text) else .error "no tree"

theorem fits_checkedTree (text : String) : Tree.Fits checkedTree text := by
  intro root hRoot _
  unfold checkedTree at hRoot
  split at hRoot <;> cases hRoot
  assumption

def ownedContext : Context := ⟨.ofTrees checkedTree, Library.empty.resolver, "B", "b.sol"⟩

/-- What the parser reads in the first text. -/
def ownedUnit : Outline :=
  let owner : Variable :=
    { (default : Variable) with
      name := some "o", nameSpan := some ⟨19, 20⟩, type := ⟨"address", ⟨11, 18⟩⟩, span := ⟨11, 21⟩ }
  let parameter : Variable :=
    { (default : Variable) with
      name := some "a", nameSpan := some ⟨41, 42⟩, type := ⟨"address", ⟨33, 40⟩⟩, span := ⟨33, 42⟩ }
  let ctor : Function :=
    { (default : Function) with
      kind := .constructor, name := "constructor", parameters := [parameter]
      paramsSpan := ⟨32, 43⟩, body := some ⟨⟨43, 49⟩, [], [], [⟨"o", ⟨44, 45⟩⟩, ⟨"a", ⟨46, 47⟩⟩]⟩
      span := ⟨21, 49⟩ }
  let base : Invocation :=
    ⟨"A", ⟨64, 65⟩, some [⟨.other, ⟨66, 76⟩, [⟨"msg", ⟨66, 69⟩⟩]⟩], some ⟨65, 77⟩, [], ⟨64, 77⟩⟩
  ⟨[.contract { (default : Contract) with
      name := "A", nameSpan := ⟨9, 10⟩, stateVariables := [owner], functions := [ctor]
      bodySpan := ⟨10, 50⟩, span := ⟨0, 50⟩ },
    .contract { (default : Contract) with
      name := "B", nameSpan := ⟨59, 60⟩, bases := [base], bodySpan := ⟨77, 79⟩
      span := ⟨50, 79⟩ }], ⟨0, 79⟩⟩

/-- What the parser reads in the second text. -/
def handedUnit : Outline :=
  let owner : Variable :=
    { (default : Variable) with
      name := some "o", nameSpan := some ⟨19, 20⟩, type := ⟨"address", ⟨11, 18⟩⟩, span := ⟨11, 21⟩ }
  let parameter : Variable :=
    { (default : Variable) with
      name := some "a", nameSpan := some ⟨54, 55⟩, type := ⟨"address", ⟨46, 53⟩⟩, span := ⟨46, 55⟩ }
  let initializer : Function :=
    { (default : Function) with
      kind := .function, name := "__constructor_A", nameSpan := some ⟨30, 45⟩
      parameters := [parameter], paramsSpan := ⟨45, 56⟩, visibility := some .internally
      attributes := [⟨"internal", ⟨57, 65⟩⟩]
      body := some ⟨⟨66, 72⟩, [], [], [⟨"o", ⟨67, 68⟩⟩, ⟨"a", ⟨69, 70⟩⟩]⟩, span := ⟨21, 72⟩ }
  let call : Call :=
    ⟨"__constructor_A", ⟨118, 133⟩, .none, [⟨.other, ⟨134, 144⟩, [⟨"msg", ⟨134, 137⟩⟩]⟩], ⟨118, 145⟩⟩
  let ctor : Function :=
    { (default : Function) with
      kind := .constructor, name := "constructor", paramsSpan := ⟨105, 107⟩
      body := some ⟨⟨108, 152⟩, [], [call], [⟨"__constructor_A", ⟨118, 133⟩⟩, ⟨"msg", ⟨134, 137⟩⟩]⟩
      span := ⟨94, 152⟩ }
  ⟨[.contract { (default : Contract) with
      name := "A", nameSpan := ⟨9, 10⟩, stateVariables := [owner], functions := [initializer]
      bodySpan := ⟨10, 73⟩, span := ⟨0, 73⟩ },
    .contract { (default : Contract) with
      name := "B", nameSpan := ⟨82, 83⟩, bases := [⟨"A", ⟨87, 88⟩, none, none, [], ⟨87, 88⟩⟩]
      functions := [ctor], bodySpan := ⟨88, 154⟩, span := ⟨73, 154⟩ }], ⟨0, 154⟩⟩

def ownedIndex : Index := .ofSource (.ofText owned) ownedUnit

def handedIndex : Index := .ofSource ⟨handed, owned, 1⟩ handedUnit

def ownedEdits : List Edit :=
  [⟨⟨21, 43⟩, "function __constructor_A(address a) internal "⟩, ⟨⟨65, 77⟩, ""⟩,
    ⟨⟨78, 78⟩, "\n    constructor() \x7b\n        __constructor_A(msg.sender);\n    \x7d\n"⟩]

/-- What is known when constructors have been merged and nothing is staged. -/
def ownedWork (constructors : List Construction.Report) : Work :=
  ⟨.empty, ⟨"B", AddressUsage.all ownedIndex, constructors, .empty, .empty⟩, []⟩

def ownedReports : List Construction.Report :=
  [⟨"B", ["A", "B"], true, [], ["__constructor_A(msg.sender)"], true⟩,
    ⟨"A", ["A"], false, ["address a"], [], false⟩]

def ownedOutput : Output :=
  ⟨handed, { (ownedWork ownedReports).metadata with storage := StorageMap.ofIndex handedIndex }, []⟩

theorem parse_handed (before : List String) :
    ownedContext.parser.parse before handed = .ok handedUnit := by
  dsimp only [ownedContext, Parser.ofTrees]
  decide +kernel

theorem merge_owned :
    Construction.merge ownedIndex "B" = .ok (ownedEdits, ownedReports) := by
  have hSome : (Construction.merge ownedIndex "B").toOption = some (ownedEdits, ownedReports) := by
    decide +kernel
  revert hSome
  cases Construction.merge ownedIndex "B" <;> simp [Except.toOption]

theorem gives_reach_owned : (reach (standard.take 3) ownedContext owned).Gives []
    ⟨.ofText owned, some ownedIndex, ownedWork []⟩ [owned] := by
  have hUnit : ownedContext.parser.parse [] owned = .ok ownedUnit := by decide +kernel
  have hComments : Comment.removals owned = [] := by decide +kernel
  have h₀ : (reach (standard.take 0) ownedContext owned).Gives []
      ⟨.ofText owned, some ownedIndex, .start "B"⟩ [owned] := gives_reach_iff.mpr ⟨_, .start hUnit⟩
  have h₁ : (reach (standard.take 1) ownedContext owned).Gives []
      ⟨.ofText owned, some ownedIndex, .start "B"⟩ [owned] := by
    refine (gives_reach_take_iff rfl).mpr ⟨_, _, h₀, ?_⟩
    change (Run.within "comments"
      (Run.ofExcept (Work.stage _ (Comment.removals owned))) >>= _).Gives _ _ _
    rw [hComments]
    rfl
  have h₂ : (reach (standard.take 2) ownedContext owned).Gives []
      ⟨.ofText owned, some ownedIndex, .start "B"⟩ [owned] := by
    refine (gives_reach_take_iff rfl).mpr ⟨_, _, h₁, ?_⟩
    rfl
  refine (gives_reach_take_iff rfl).mpr ⟨_, _, h₂, ?_⟩
  exact (gives_step_iff rfl).mpr ⟨_, rfl, rfl⟩

theorem gives_reach_handed : (reach (standard.take 4) ownedContext owned).Gives []
    ⟨⟨handed, owned, 1⟩, some handedIndex, ownedWork ownedReports⟩ [owned, handed] := by
  have hCommit : Batch.commit ⟨ownedEdits⟩ (.ofText owned) = .ok ⟨handed, owned, 1⟩ := by cbv
  refine (gives_reach_take_iff rfl).mpr ⟨_, _, gives_reach_owned, ?_⟩
  refine (gives_step_iff rfl).mpr ⟨{ ownedWork ownedReports with batch := ⟨ownedEdits⟩ }, ?_, ?_⟩
  · change (Construction.merge ownedIndex "B" >>= _) = _
    rw [merge_owned]
    rfl
  · exact (State.gives_commit_iff rfl).mpr ⟨_, _, hCommit, parse_handed _, rfl, rfl⟩

theorem gives_run_owned :
    (standard.run ownedContext owned).Gives [] ownedOutput [owned, handed] := by
  have hSeparate : Collision.separateAll Selector.ofText handedIndex = .ok .empty := by cbv
  have hIssues : CallSite.issues handedIndex = [] := by decide +kernel
  have h₅ : (reach (standard.take 5) ownedContext owned).Gives []
      ⟨⟨handed, owned, 1⟩, some handedIndex, ownedWork ownedReports⟩ [owned, handed] := by
    refine (gives_reach_take_iff rfl).mpr ⟨_, _, gives_reach_handed, ?_⟩
    refine (gives_step_iff rfl).mpr ⟨ownedWork ownedReports, ?_, rfl⟩
    rw [hSeparate]
    rfl
  have h₆ : (reach (standard.take 6) ownedContext owned).Gives []
      ⟨⟨handed, owned, 1⟩, some handedIndex, ownedWork ownedReports⟩ [owned, handed] := by
    refine (gives_reach_take_iff rfl).mpr ⟨_, _, h₅, ?_⟩
    refine (gives_step_iff rfl).mpr ⟨ownedWork ownedReports, ?_, rfl⟩
    change (do
      let staged ← Work.stage _ (CallSite.edits handedIndex [])
      return { staged with warnings := staged.warnings ++ CallSite.issues handedIndex }) = _
    rw [CallSite.edits_nil, hIssues]
    rfl
  have h₇ : (reach standard ownedContext owned).Gives []
      ⟨⟨handed, owned, 1⟩, some handedIndex, ⟨.empty, ownedOutput.metadata, []⟩⟩
      [owned, handed] := by
    refine (gives_reach_take_iff (p := standard) (n := 6) rfl).mpr ⟨_, _, h₆, ?_⟩
    exact (gives_step_iff rfl).mpr ⟨_, rfl, rfl⟩
  rw [run_eq, Run.gives_bind_iff]
  exact ⟨_, _, h₇, rfl⟩

/-- The entry for addresses names a constructor that is not in the text any more. The entry for the
variable names the function in its place. -/
theorem owned_described :
    (standard.run ownedContext owned).Gives [] ownedOutput [owned, handed] ∧
    ownedContext.parser.Places ∧
    ownedOutput.metadata.addressFunctions.map (fun u => (u.contract, u.function)) =
      [("A", "constructor(address)")] ∧
    StorageMap.Listed ownedOutput.metadata.storage.accesses "A.o" "A.__constructor_A(address)" ∧
    ∃ seen merged last, VersionAfter ownedContext owned (standard.take 2) seen ∧
      VersionAfter ownedContext owned (standard.take 4) merged ∧
      VersionAfter ownedContext owned standard last ∧
      (∀ d f, (d, f) ∈ last.unit.definitions →
        (d.name, f.signature) ≠ ("A", "constructor(address)")) ∧
      Describes ownedContext ownedOutput seen merged last := by
  obtain ⟨seen, merged, last, hSeen, hMerged, hLast, hDescribes⟩ := describes_of_run gives_run_owned
  have hAccesses : ownedOutput.metadata.storage.accesses =
      [("A.o", ["A.__constructor_A(address)"])] := by decide +kernel
  have hUnit : last.unit = handedUnit := by
    obtain ⟨before, hParsed⟩ := hLast.parsed
    rw [← hDescribes.returned] at hParsed
    exact Except.ok.inj (hParsed.symm.trans (parse_handed before))
  have hNames : ∀ p ∈ handedUnit.definitions,
      (p.1.name, p.2.signature) ≠ ("A", "constructor(address)") := by decide +kernel
  refine ⟨gives_run_owned, Parser.places_ofTrees fits_checkedTree, by decide +kernel, ?_, seen, merged,
    last, hSeen, hMerged, hLast, fun d f hd => hNames (d, f) (hUnit ▸ hd), hDescribes⟩
  rw [hAccesses]
  exact ⟨_, List.mem_singleton_self _, List.mem_singleton_self _⟩

end Pipeline

end SolNorm
