import SolNorm.Proofs.Construction.Spans
import SolNorm.Proofs.Import.Failure
import SolNorm.Proofs.Pipeline.Sync
import SolNorm.Proofs.Selector.Exhaustion

/-!
Runs that do not trip over themselves. A pass is given an index that can be trusted and leaves edits
that are for different bytes of the current text, so that they can be staged and applied. What a pass
relies on is what the passes before it have left.
-/

namespace SolNorm

open Outcome

/-- The edits of a batch are for different bytes of a text. -/
structure Batch.FitsOn (b : Batch) (text : String) : Prop where
  disjoint : (b.edits.map Edit.span).Pairwise Span.Disjoint
  fits : ∀ e ∈ b.edits, e.span.FitsIn text

namespace Batch

variable {b : Batch} {text : String} {source : Source} {edits : List Edit}

theorem fitsOn_empty (text : String) : empty.FitsOn text := ⟨.nil, by simp [empty]⟩

/-- Edits that fit on a text together can be staged together. -/
theorem FitsOn.compatible (h : b.FitsOn text) : Edit.Compatible b.edits :=
  Edit.compatible_of_disjoint h.fits h.disjoint

theorem FitsOn.fits_source (h : b.FitsOn source.text) : ∀ e ∈ b.edits, source.fits e = true :=
  fun e he => Source.fits_of_fitsIn (h.fits e he)

/-- Edits can be staged if they can be in one batch with those that are staged already. -/
theorem FitsOn.stageAll (h : FitsOn ⟨b.edits ++ edits⟩ text) :
    b.stageAll edits = .ok ⟨b.edits ++ edits⟩ := by
  obtain ⟨hForward, hApart⟩ := h.compatible
  obtain ⟨_, hNew, hBoth⟩ := List.pairwise_append.mp hApart
  apply stageAll_eq_ok_iff.mpr
  exact ⟨⟨fun e he => hForward e (List.mem_append_right _ he), hNew⟩, hBoth, rfl⟩

end Batch

/-- Edits that fit with what is staged can be staged. -/
theorem Work.stage_of_fitsOn {w : Work} {edits : List Edit} {text : String}
    (h : Batch.FitsOn ⟨w.batch.edits ++ edits⟩ text) :
    w.stage edits = .ok { w with batch := ⟨w.batch.edits ++ edits⟩ } := by
  rw [stage, h.stageAll]
  rfl

/-- Edits that can be applied and are refused afterwards by the parser are no slip. -/
theorem State.isSlip_of_fails_commit {s : State} {parser : Parser} {pass : String} {e : Error}
    {before after : List String} (hFits : s.work.batch.FitsOn s.source.text)
    (h : (s.commit parser pass).Fails before e after) : e.isSlip = false := by
  cases hEmpty : s.work.batch.isEmpty with
  | true =>
      rw [commit_of_isEmpty _ _ hEmpty] at h
      exact (Run.not_fails_pure h).elim
  | false =>
      rcases (fails_commit_iff hEmpty).mp h with ⟨hError, _⟩ | ⟨_, cause, _, _, rfl, _⟩
      · obtain ⟨next, hCommit, _⟩ := Batch.commit_of_fits hFits.fits_source
        rw [hCommit] at hError
        cases hError
      · rfl

/-- A run ends with an error of one kind or with a result of one kind. -/
structure Run.Meets {α : Type} (E : Error → Prop) (Q : α → Prop) (run : Run α)
    (before : List String) : Prop where
  fails : ∀ e after, run.Fails before e after → E e
  gives : ∀ a after, run.Gives before a after → Q a

theorem Run.meets_ofExcept {α : Type} {E : Error → Prop} {Q : α → Prop} {x : Except Error α}
    (h : Outcome.Meets E Q x) (before : List String) : Meets E Q (ofExcept x) before := by
  constructor
  · intro e after he
    exact h.fails e (fails_ofExcept_iff.mp he).1
  · intro a after ha
    exact h.gives a (gives_ofExcept_iff.mp ha).1

/-- The second part only has to deal with what the first one can give. -/
theorem Run.Meets.bind {α β : Type} {E : Error → Prop} {Q : α → Prop} {R : β → Prop} {x : Run α}
    {f : α → Run β} {before : List String} (hx : Meets E Q x before)
    (hf : ∀ a middle, Q a → Meets E R (f a) middle) : Meets E R (x >>= f) before := by
  constructor
  · intro e after he
    rcases fails_bind_iff.mp he with he | ⟨a, middle, ha, he⟩
    · exact hx.fails e after he
    · exact (hf a middle (hx.gives a middle ha)).fails e after he
  · intro b after hb
    obtain ⟨a, middle, ha, hb⟩ := gives_bind_iff.mp hb
    exact (hf a middle (hx.gives a middle ha)).gives b after hb

/-- The index of a state is for the current text, and its spans can be trusted. -/
structure State.Trusts (s : State) (i : Index) : Prop where
  current : s.currentIndex = .ok i
  text : i.text = s.source.text
  spans : i.unit.SpansFit i.text

namespace Pass

/-- The errors that a pass may end with. Only the pass that gives new names can run out of them. -/
def Excused (pass : Pass) (i : Index) (e : Error) : Prop :=
  e.isSlip = false ∨ pass.name = "selectors" ∧ Collision.NoNameLeft Selector.ofText i e

/-- A pass goes on from one thing that is known of the index and of the work to another, and what it
leaves can be applied. -/
def Keeps (pass : Pass) (c : Context) (P Q : Index → Work → Prop) : Prop :=
  ∀ s i before, s.Trusts i → P i s.work →
    Run.Meets (pass.Excused i) (fun w => w.batch.FitsOn i.text ∧ Q i w) (pass.run c s) before

/-- Nothing is staged. -/
def Clean (_ : Index) (w : Work) : Prop := w.batch = .empty

/-- The new names that are recorded are staged, each where its definition is named. -/
def Renamed (i : Index) (w : Work) : Prop :=
  Collision.Placed i w.metadata.marking.renames ∧
    w.batch.edits = w.metadata.marking.renames.map fun r => ⟨r.span, r.name⟩

theorem Clean.fitsOn {i : Index} {w : Work} (h : Clean i w) (text : String) :
    w.batch.FitsOn text := by
  rw [show w.batch = .empty from h]
  exact Batch.fitsOn_empty text

/-- Edits for different bytes can be staged when nothing else is. -/
theorem Clean.stage {i : Index} {w : Work} (h : Clean i w) {edits : List Edit} {text : String}
    (hEdits : Batch.FitsOn ⟨edits⟩ text) : w.stage edits = .ok { w with batch := ⟨edits⟩ } := by
  obtain ⟨batch, metadata, warnings⟩ := w
  obtain rfl : batch = .empty := h
  exact Work.stage_of_fitsOn hEdits

variable {c : Context}

/-- A pass that needs the index and nothing else. -/
theorem keeps_of_index {name description : String}
    {run : Context → Index → Work → Except Error Work} {P Q : Index → Work → Prop}
    (h : ∀ i w, i.unit.SpansFit i.text → P i w →
      Outcome.Meets (Excused ⟨name, description, fun c => ofIndex (run c) c⟩ i)
        (fun w => w.batch.FitsOn i.text ∧ Q i w) (run c i w)) :
    Keeps ⟨name, description, fun c => ofIndex (run c) c⟩ c P Q := by
  intro s i before hTrusts hBefore
  dsimp only
  rw [ofIndex, hTrusts.current, Run.ofExcept_ok, pure_bind]
  exact Run.meets_ofExcept (h i s.work hTrusts.spans hBefore) before

/-- The step for comments: they are apart from each other. -/
theorem keeps_comments : Keeps .comments c Clean fun _ _ => True := by
  intro s i before hTrusts hClean
  have hEdits : Batch.FitsOn ⟨Comment.removals s.source.text⟩ s.source.text :=
    ⟨(Comment.removals_before _).imp Or.inl, Comment.removals_fit _⟩
  apply Run.meets_ofExcept
  apply meets_of_eq_ok (hClean.stage hEdits)
  rw [hTrusts.text]
  exact ⟨hEdits, trivial⟩

/-- The step for imports: each is replaced where it stands. -/
theorem keeps_imports {l : Library} (hResolver : c.resolver = l.resolver) :
    Keeps .imports c Clean fun _ _ => True := by
  intro s i before hTrusts hClean
  show Run.Meets _ _ (Run.ofExcept s.currentIndex >>= fun i => _) before
  rw [hTrusts.current, Run.ofExcept_ok, pure_bind]
  have hFiles : Run.Meets (Excused .imports i)
      (fun edits => edits.map Edit.span = i.unit.imports.map Outline.Import.span)
      (Flatten.edits ⟨c.parser, c.resolver⟩ c.path i.unit) before := by
    constructor
    · intro e after he
      refine .inl (Flatten.isSlip_of_edits (fun path importer => ?_) he)
      show FailsIn _ (c.resolver.resolve path importer)
      rw [hResolver]
      exact l.failsIn_resolve path importer
    · intro edits after hEdits
      exact Flatten.span_of_edits hEdits
  apply hFiles.bind
  intro edits middle hSpans
  have hImports := hTrusts.spans.imports
  have hEdits : Batch.FitsOn ⟨edits⟩ i.text := by
    constructor
    · rw [hSpans]
      exact hImports.before.imp Or.inl
    · intro e he
      have hSpan := List.mem_map_of_mem (f := Edit.span) he
      rw [hSpans] at hSpan
      obtain ⟨d, hd, hSame⟩ := List.mem_map.mp hSpan
      exact hSame ▸ hImports.fits d hd
  apply Run.meets_ofExcept
  exact meets_of_eq_ok (hClean.stage hEdits) ⟨hEdits, trivial⟩

/-- A pass that records what it finds and stages nothing. -/
theorem keeps_of_findings {name description : String} {find : Index → Work → Work}
    (hBatch : ∀ i w, (find i w).batch = w.batch) :
    Keeps ⟨name, description, ofIndex fun i w => .ok (find i w)⟩ c Clean Clean := by
  refine keeps_of_index fun i w _ hClean => ?_
  have hStill : Clean i (find i w) := (hBatch i w).trans hClean
  exact meets_of_eq_ok rfl ⟨hStill.fitsOn i.text, hStill⟩

/-- The step for constructors: what a merge touches is apart. -/
theorem keeps_constructor : Keeps .constructor c Clean fun _ _ => True := by
  refine keeps_of_index fun i w hSpans hClean => ?_
  have hMerge : Outcome.Meets (Excused .constructor i) (fun x => Batch.FitsOn ⟨x.1⟩ i.text)
      (Construction.merge i c.mainContract) := by
    constructor
    · intro e he
      exact .inl (Construction.failsIn_merge hSpans c.mainContract e he)
    · rintro ⟨edits, reports⟩ hMerge
      obtain ⟨hDisjoint, hFits⟩ := Construction.disjoint_of_merge hSpans hMerge
      exact ⟨hDisjoint, hFits⟩
  apply hMerge.bind
  rintro ⟨edits, reports⟩ hEdits
  dsimp only at hEdits ⊢
  rw [hClean.stage hEdits]
  exact meets_of_eq_ok rfl ⟨hEdits, trivial⟩

/-- The step for new names: definitions are named on different bytes. -/
theorem keeps_selectors : Keeps .selectors c Clean Renamed := by
  refine keeps_of_index fun i w hSpans hClean => ?_
  have hMarking : Outcome.Meets (Excused .selectors i)
      (fun m => Collision.Placed i m.renames) (Collision.separateAll Selector.ofText i) := by
    constructor
    · intro e he
      exact (Collision.failsIn_separateAll hSpans e he).imp id fun h => ⟨rfl, h⟩
    · intro m hm
      exact Collision.placed_of_separateAll hm
  apply hMarking.bind
  intro m hPlaced
  have hEdits : Batch.FitsOn ⟨m.renames.map fun r => ⟨r.span, r.name⟩⟩ i.text := by
    constructor
    · rw [List.map_map]
      exact hPlaced.disjoint hSpans
    · intro e he
      obtain ⟨r, hr, rfl⟩ := List.mem_map.mp he
      exact hPlaced.fits hSpans hr
  rw [hClean.stage hEdits]
  exact meets_of_eq_ok rfl ⟨hEdits, hPlaced, rfl⟩

/-- The step for calls: no call is named where a function or another call is. -/
theorem keeps_functionCalls : Keeps .functionCalls c Renamed fun _ _ => True := by
  refine keeps_of_index fun i w hSpans hRenamed => ?_
  obtain ⟨hPlaced, hBatch⟩ := hRenamed
  generalize w.metadata.marking.renames = r at *
  have hEdits : Batch.FitsOn ⟨w.batch.edits ++ CallSite.edits i r⟩ i.text := by
    rw [hBatch]
    refine ⟨hPlaced.disjoint_calls hSpans, fun e he => ?_⟩
    rcases List.mem_append.mp he with he | he
    · obtain ⟨new, hNew, rfl⟩ := List.mem_map.mp he
      exact hPlaced.fits hSpans hNew
    · exact Collision.fits_of_callEdits hSpans he
  rw [Work.stage_of_fitsOn hEdits]
  exact meets_of_eq_ok rfl ⟨hEdits, trivial⟩

end Pass

namespace Pipeline

open Pass

/-- Passes of which each finds what it relies on. After a barrier nothing is staged. -/
inductive Guarded (c : Context) : (Index → Work → Prop) → Pipeline → Prop where
  | nil {P : Index → Work → Prop} : Guarded c P []
  | wait {P Q : Index → Work → Prop} {step : Step} {rest : Pipeline}
      (hPass : step.pass.Keeps c P Q) (hOpen : step.isBarrier = false) (hRest : Guarded c Q rest) :
      Guarded c P (step :: rest)
  | commit {P Q : Index → Work → Prop} {step : Step} {rest : Pipeline}
      (hPass : step.pass.Keeps c P Q) (hBarrier : step.isBarrier = true)
      (hRest : Guarded c Clean rest) : Guarded c P (step :: rest)

theorem Guarded.keeps {c : Context} {P : Index → Work → Prop} {step : Step} {rest : Pipeline}
    (h : Guarded c P (step :: rest)) : ∃ Q, step.pass.Keeps c P Q := by
  cases h with
  | wait hPass _ _ => exact ⟨_, hPass⟩
  | commit hPass _ _ => exact ⟨_, hPass⟩

/-- A run ends in the pass that gives new names, because there is none left. -/
def RunsOut (c : Context) (text : String) (p : Pipeline) (e : Error) : Prop :=
  ∃ (done rest : Pipeline) (step : Step) (s : State) (asked : List String) (i : Index)
    (cause : Error),
    p = done ++ step :: rest ∧ step.pass.name = "selectors" ∧ (done.reach c text).Gives [] s asked ∧
    s.currentIndex = .ok i ∧ Collision.NoNameLeft Selector.ofText i cause ∧
    e = .inPass "selectors" cause

section

variable {c : Context} {text : String} {p : Pipeline}
  (hParser : ∀ asked text unit, c.parser.parse asked text = .ok unit → unit.SpansFit text)

include hParser

/-- Every state that is reached has an index that can be trusted, if the parser can. -/
theorem Reaches.trusts {done : Pipeline} {s : State} {log : Log} {asked : List String}
    (h : Reaches c text done s log asked) : ∃ i, s.Trusts i := by
  obtain ⟨i, answer, _, hCurrent, _, hText, hUnit, _, hAnswer, hParse⟩ := h.inSync.indexed
  refine ⟨i, hCurrent, hText, ?_⟩
  rw [hUnit, hText, ← hAnswer]
  exact hParser _ _ _ hParse

variable (hAll : Guarded c Clean p) {done rest : Pipeline} {step : Step} {s : State}
  {asked after : List String} {e : Error}

include hAll

/-- The run of a pipeline: a pass finds what it relies on, and what is staged can be applied. -/
theorem Guarded.reaches {log : Log} (h : Reaches c text done s log asked) (hp : p = done ++ rest) :
    ∃ P, Guarded c P rest ∧ (∀ i, s.currentIndex = .ok i → P i s.work) ∧
      s.work.batch.FitsOn s.source.text := by
  induction h generalizing rest with
  | start hUnit =>
      subst hp
      exact ⟨Clean, hAll, fun _ _ => rfl, Batch.fitsOn_empty _⟩
  | @wait done step s log asked after work prior hPass hWait ih =>
      rw [List.append_assoc] at hp
      obtain ⟨P, hGuarded, hBefore, _⟩ := ih hp
      obtain ⟨i, hTrusts⟩ := prior.trusts hParser
      cases hGuarded with
      | @wait _ Q _ _ hKeeps hOpen hRest =>
          obtain ⟨hFits, hAfter⟩ :=
            (hKeeps s i asked hTrusts (hBefore i hTrusts.current)).gives work after hPass
          refine ⟨Q, hRest, fun j hj => ?_, hTrusts.text ▸ hFits⟩
          -- A pass hands on work only, and the index is still the same.
          obtain rfl : i = j := Except.ok.inj (hTrusts.current.symm.trans hj)
          exact hAfter
      | commit hKeeps hBarrier hRest =>
          rcases hWait with hOpen | hEmpty
          · rw [hOpen] at hBarrier
            cases hBarrier
          · have hClean : work.batch = .empty := Batch.eq_empty_of_isEmpty hEmpty
            exact ⟨Clean, hRest, fun _ _ => hClean, Clean.fitsOn (i := i) hClean _⟩
  | @commit done step s log asked after work source unit prior hPass hBarrier hEdits hCommit hUnit
      ih =>
      rw [List.append_assoc] at hp
      obtain ⟨P, hGuarded, _⟩ := ih hp
      cases hGuarded with
      | wait _ hOpen _ =>
          rw [hOpen] at hBarrier
          cases hBarrier
      | commit _ _ hRest => exact ⟨Clean, hRest, fun _ _ => rfl, Batch.fitsOn_empty _⟩

/-- What a pass does when its turn comes. -/
theorem Guarded.meets (hp : p = done ++ step :: rest) (h : (done.reach c text).Gives [] s asked) :
    ∃ i, s.Trusts i ∧ Run.Meets (step.pass.Excused i)
      (fun w => w.batch.FitsOn s.source.text) (step.pass.run c s) asked := by
  obtain ⟨log, prior⟩ := gives_reach_iff.mp h
  obtain ⟨i, hTrusts⟩ := prior.trusts hParser
  obtain ⟨P, hGuarded, hBefore, _⟩ := hAll.reaches hParser prior hp
  obtain ⟨Q, hKeeps⟩ := hGuarded.keeps
  have hMeets := hKeeps s i asked hTrusts (hBefore i hTrusts.current)
  refine ⟨i, hTrusts, hMeets.fails, fun w after hw => ?_⟩
  rw [← hTrusts.text]
  exact (hMeets.gives w after hw).1

/-- The step: a pass and what is applied after it fail for other reasons than slips, unless there is
no new name left. -/
theorem Guarded.fails_step (hp : p = done ++ step :: rest)
    (hReach : (done.reach c text).Gives [] s asked) (h : (step.run c s).Fails asked e after) :
    e.isSlip = false ∨ RunsOut c text p e := by
  obtain ⟨i, hTrusts, hMeets⟩ := hAll.meets hParser hp hReach
  unfold Step.run at h
  rcases Run.fails_bind_iff.mp h with h | ⟨work, middle, hWork, h⟩
  · obtain ⟨cause, hCause, rfl⟩ := Run.fails_within_iff.mp h
    rcases hMeets.fails cause _ hCause with hSlip | ⟨hName, hLeft⟩
    · exact .inl ((Error.isSlip_within _ cause).trans hSlip)
    · refine .inr
        ⟨done, rest, step, s, asked, i, cause, hp, hName, hReach, hTrusts.current, hLeft, ?_⟩
      obtain ⟨_, _, _, _, f, _, rfl, _⟩ := hLeft
      rw [hName]
      rfl
  · left
    have hFits := hMeets.gives work middle (Run.gives_within_iff.mp hWork)
    split at h
    · exact State.isSlip_of_fails_commit hFits h
    · exact (Run.not_fails_pure h).elim

/-- The run of all passes. -/
theorem Guarded.fails_reach (hp : p = done ++ rest) (h : (done.reach c text).Fails [] e after) :
    e.isSlip = false ∨ RunsOut c text p e := by
  induction done using List.reverseRecOn generalizing rest e after with
  | nil =>
      rcases Run.fails_bind_iff.mp h with h | ⟨unit, middle, _, h⟩
      · obtain ⟨⟨cause, _, rfl⟩, _⟩ := Run.fails_ask_iff.mp h
        exact .inl rfl
      · exact (Run.not_fails_pure h).elim
  | append_singleton done step ih =>
      rw [List.append_assoc] at hp
      rw [reach_concat] at h
      rcases Run.fails_bind_iff.mp h with h | ⟨s, asked, hReach, h⟩
      · exact ih hp h
      · exact hAll.fails_step hParser hp hReach h

/-- The run: every step keeps what the next one needs, so none of them slips unless names run out.
-/
theorem Guarded.fails_run (h : (p.run c text).Fails [] e after) :
    e.isSlip = false ∨ RunsOut c text p e := by
  rw [run_eq] at h
  rcases Run.fails_bind_iff.mp h with h | ⟨last, asked, hReach, h⟩
  · exact hAll.fails_reach hParser (List.append_nil p).symm h
  · left
    obtain ⟨log, prior⟩ := gives_reach_iff.mp hReach
    obtain ⟨_, _, _, hFits⟩ := hAll.reaches hParser prior (List.append_nil p).symm
    rcases Run.fails_bind_iff.mp h with h | ⟨final, middle, _, h⟩
    · exact State.isSlip_of_fails_commit hFits h
    · exact (Run.not_fails_pure h).elim

end

/-- Each of the standard passes leaves what the next one needs. -/
theorem guarded_standard {l : Library} {c : Context} (hResolver : c.resolver = l.resolver) :
    Guarded c Clean standard :=
  .commit keeps_comments rfl <| .commit (keeps_imports hResolver) rfl <|
    .wait (keeps_of_findings fun _ _ => rfl) rfl <| .commit keeps_constructor rfl <|
    .wait keeps_selectors rfl <| .commit keeps_functionCalls rfl <|
    .wait (keeps_of_findings fun _ _ => rfl) rfl .nil

/-- When all outlines can be trusted, every pass leaves edits that can be in one batch and that fit
the current text, and a run never fails over them. -/
theorem standard_never_slips {l : Library} {c : Context} (hResolver : c.resolver = l.resolver)
    (hParser : ∀ asked text unit, c.parser.parse asked text = .ok unit → unit.SpansFit text)
    (text : String) :
    (∀ (done rest : Pipeline) step s asked work after, standard = done ++ step :: rest →
      (done.reach c text).Gives [] s asked → (step.pass.run c s).Gives asked work after →
      Edit.Compatible work.batch.edits ∧ ∀ e ∈ work.batch.edits, s.source.fits e = true) ∧
    ∀ e after, (standard.run c text).Fails [] e after →
      e.isSlip = false ∨ RunsOut c text standard e := by
  have hAll := guarded_standard hResolver
  constructor
  · intro done rest step s asked work after hParts hReach hWork
    obtain ⟨i, _, hMeets⟩ := hAll.meets hParser hParts hReach
    have hFits := hMeets.gives work after hWork
    exact ⟨hFits.compatible, hFits.fits_source⟩
  · intro e after hFails
    exact hAll.fails_run hParser hFails

/-- A contract gives the argument for the constructor of its base. -/
def argued : Outline :=
  let parameter : Outline.Variable :=
    { (default : Outline.Variable) with
      name := some "x", type := ⟨"uint256", ⟨23, 27⟩⟩, span := ⟨23, 29⟩ }
  let ctor : Outline.Function :=
    { (default : Outline.Function) with
      kind := .constructor, name := "constructor", parameters := [parameter]
      paramsSpan := ⟨22, 30⟩, body := some ⟨⟨30, 32⟩, [], [], []⟩, span := ⟨11, 32⟩ }
  let base : Outline.Invocation :=
    ⟨"A", ⟨47, 48⟩, some [⟨.number, ⟨49, 50⟩, []⟩], some ⟨48, 51⟩, [], ⟨47, 51⟩⟩
  ⟨[.contract { (default : Outline.Contract) with
      name := "A", functions := [ctor], bodySpan := ⟨10, 33⟩, span := ⟨0, 33⟩ },
    .contract { (default : Outline.Contract) with
      name := "B", bases := [base], bodySpan := ⟨51, 53⟩, span := ⟨33, 53⟩ }], ⟨0, 53⟩⟩

/-- The same after the constructors are merged, with a function and a call of it. -/
def merged : Outline :=
  let initializer : Outline.Function :=
    { (default : Outline.Function) with
      kind := .function, name := "__constructor_A", nameSpan := some ⟨20, 35⟩
      visibility := some .internally, body := some ⟨⟨53, 55⟩, [], [], []⟩, span := ⟨11, 55⟩ }
  let call : Outline.Call :=
    ⟨"__constructor_A", ⟨101, 116⟩, .none, [⟨.number, ⟨117, 118⟩, []⟩], ⟨101, 119⟩⟩
  let ctor : Outline.Function :=
    { (default : Outline.Function) with
      kind := .constructor, name := "constructor"
      body := some ⟨⟨91, 126⟩, [], [call], []⟩, span := ⟨77, 126⟩ }
  ⟨[.contract { (default : Outline.Contract) with
      name := "A", functions := [initializer], bodySpan := ⟨10, 56⟩, span := ⟨0, 56⟩ },
    .contract { (default : Outline.Contract) with
      name := "B", bases := [⟨"A", ⟨70, 71⟩, none, none, [], ⟨70, 71⟩⟩], functions := [ctor]
      bodySpan := ⟨71, 128⟩, span := ⟨56, 128⟩ }], ⟨0, 128⟩⟩

def arguedText : String :=
  "contract A\x7bconstructor(uint x)\x7b\x7d\x7dcontract B is A(1)\x7b\x7d"

def mergedText : String :=
  "contract A\x7bfunction __constructor_A(uint x) internal \x7b\x7d\x7dcontract B is A\x7b\n" ++
    "    constructor() \x7b\n        __constructor_A(1);\n    \x7d\n\x7d"

def arguedContext : Context :=
  ⟨.ofTable [(arguedText, argued), (mergedText, merged)], Library.empty.resolver, "B", "b.sol"⟩

def arguedState : State := (State.ofText arguedText "B").parsed argued

theorem argued_spans (asked : List String) (text : String) (unit : Outline)
    (h : arguedContext.parser.parse asked text = .ok unit) : unit.SpansFit text := by
  rcases List.mem_pair.mp (Parser.mem_of_ofTable h) with hPair | hPair <;> cases hPair
  · decide +kernel
  · decide +kernel

/-- The header of a constructor is replaced, arguments are taken away and a constructor is put in,
all in one batch. -/
theorem argued_never_slips :
    (∀ asked text unit, arguedContext.parser.parse asked text = .ok unit → unit.SpansFit text) ∧
    (∃ s asked work after,
      (reach (standard.take 3) arguedContext arguedText).Gives [] s asked ∧
      (Pass.constructor.run arguedContext s).Gives asked work after ∧
      work.batch.edits.map Edit.span = [⟨11, 30⟩, ⟨48, 51⟩, ⟨52, 52⟩] ∧
      Edit.Compatible work.batch.edits ∧ ∀ e ∈ work.batch.edits, s.source.fits e = true) ∧
    ∀ e after, (standard.run arguedContext arguedText).Fails [] e after →
      e.isSlip = false ∨ RunsOut arguedContext arguedText standard e := by
  obtain ⟨hBatches, hFails⟩ :=
    standard_never_slips (l := Library.empty) (c := arguedContext) rfl argued_spans arguedText
  have hReach : (reach (standard.take 3) arguedContext arguedText).Gives [] arguedState
      [arguedText] := by
    cbv
  have hSpans : ((Pass.constructor.run arguedContext arguedState).ending [arguedText]).1.toOption.map
      (fun work => work.batch.edits.map Edit.span) = some [⟨11, 30⟩, ⟨48, 51⟩, ⟨52, 52⟩] := by
    cbv
  cases hRun : (Pass.constructor.run arguedContext arguedState).ending [arguedText] with
  | mk result after =>
      rw [hRun] at hSpans
      cases result with
      | error e => cases hSpans
      | ok work =>
          have hStaged := hBatches _ _ ⟨.constructor, true⟩ _ _ work after rfl hReach hRun
          exact ⟨argued_spans,
            ⟨_, _, work, after, hReach, hRun, Option.some.inj hSpans, hStaged⟩, hFails⟩

end Pipeline

end SolNorm
