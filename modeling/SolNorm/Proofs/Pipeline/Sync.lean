import SolNorm.Pipeline.Standard
import SolNorm.Proofs.Pipeline.Run

/-!
What a pass finds when its turn comes. A run is followed pass by pass, with a log of the batches that
it has applied and of the texts that it has parsed. The index that a pass sees always belongs to the
current version of the source, and in the end the text that is handed out is the last one that was
parsed.
-/

namespace SolNorm

namespace Batch

/-- Where nothing is staged, nothing is committed. -/
theorem commit_of_isEmpty {b : Batch} (h : b.isEmpty = true) (source : Source) :
    b.commit source = .ok source := by
  rw [commit, if_pos h]

theorem eq_empty_of_isEmpty {b : Batch} (h : b.isEmpty = true) : b = .empty := by
  obtain ⟨edits⟩ := b
  rw [isEmpty, List.isEmpty_iff] at h
  exact congrArg Batch.mk h

/-- A batch with edits leads to the next version. -/
theorem exists_next_of_commit {b : Batch} {source next : Source} (h : b.isEmpty = false)
    (hCommit : b.commit source = .ok next) : ∃ text, next = source.next text := by
  unfold commit at hCommit
  rw [if_neg (by simp [h])] at hCommit
  split at hCommit
  · cases hCommit
  · exact ⟨_, (Except.ok.inj hCommit).symm⟩

end Batch

namespace State

/-- A state after some edits were applied to its source and the new version was parsed. -/
def applied (s : State) (source : Source) (unit : Outline) : State :=
  ⟨source, some (.ofSource source unit), { s.work with batch := .empty }⟩

theorem commit_of_isEmpty {s : State} (parser : Parser) (pass : String)
    (h : s.work.batch.isEmpty = true) : s.commit parser pass = pure s := by
  have hSame : { s with work := { s.work with batch := .empty } } = s := by
    rw [← Batch.eq_empty_of_isEmpty h]
  unfold commit
  rw [Batch.commit_of_isEmpty h, Run.ofExcept_ok, pure_bind, if_pos rfl]
  exact congrArg pure hSame

/-- Where something is staged, the new text is parsed before it counts. -/
theorem commit_of_not_isEmpty {s : State} (parser : Parser) (pass : String)
    (h : s.work.batch.isEmpty = false) :
    s.commit parser pass = do
      let source ← Run.ofExcept (s.work.batch.commit s.source)
      let unit ← Run.ask parser (.regression pass) source.text
      return s.applied source unit := by
  unfold commit
  cases hCommit : s.work.batch.commit s.source with
  | error e => rfl
  | ok source =>
      obtain ⟨text, rfl⟩ := Batch.exists_next_of_commit h hCommit
      have hNew : ¬ (s.source.next text).version = s.source.version := by
        show ¬ s.source.version + 1 = s.source.version
        omega
      rw [Run.ofExcept_ok, pure_bind, if_neg hNew, pure_bind]
      rfl

/-- Applying edits that are there gives the next version, parsed. -/
theorem gives_commit_iff {s next : State} {parser : Parser} {pass : String}
    {before after : List String} (h : s.work.batch.isEmpty = false) :
    (s.commit parser pass).Gives before next after ↔
      ∃ source unit, s.work.batch.commit s.source = .ok source ∧
        parser.parse before source.text = .ok unit ∧ s.applied source unit = next ∧
        before ++ [source.text] = after := by
  rw [commit_of_not_isEmpty parser pass h]
  simp only [Run.gives_bind_iff, Run.gives_ofExcept_iff, Run.gives_ask_iff, Run.gives_pure_iff]
  constructor
  · rintro ⟨source, _, ⟨hCommit, rfl⟩, unit, _, ⟨hUnit, rfl⟩, rfl, rfl⟩
    exact ⟨source, unit, hCommit, hUnit, rfl, rfl⟩
  · rintro ⟨source, unit, hCommit, hUnit, rfl, rfl⟩
    exact ⟨source, before, ⟨hCommit, rfl⟩, unit, _, ⟨hUnit, rfl⟩, rfl, rfl⟩

/-- Applying edits fails if they do not fit, or if the new version is refused. -/
theorem fails_commit_iff {s : State} {parser : Parser} {pass : String} {e : Error}
    {before after : List String} (h : s.work.batch.isEmpty = false) :
    (s.commit parser pass).Fails before e after ↔
      (s.work.batch.commit s.source = .error e ∧ before = after) ∨
      ∃ source cause, s.work.batch.commit s.source = .ok source ∧
        parser.parse before source.text = .error cause ∧ Error.regression pass cause = e ∧
        before ++ [source.text] = after := by
  rw [commit_of_not_isEmpty parser pass h]
  simp only [Run.fails_bind_iff, Run.gives_ofExcept_iff, Run.fails_ofExcept_iff, Run.fails_ask_iff,
    Run.not_fails_pure, and_false, exists_false, or_false]
  apply or_congr Iff.rfl
  constructor
  · rintro ⟨source, _, ⟨hCommit, rfl⟩, ⟨cause, hCause, rfl⟩, rfl⟩
    exact ⟨source, cause, hCommit, hCause, rfl, rfl⟩
  · rintro ⟨source, cause, hCommit, hCause, rfl, rfl⟩
    exact ⟨source, before, ⟨hCommit, rfl⟩, ⟨cause, hCause, rfl⟩, rfl⟩

end State

/-- An answer of the parser on a text, after it has been asked about others. -/
structure Answer where
  before : List String
  text : String
  unit : Outline

/-- What a run has done to its source so far: the batches that it has applied, and the answers on the
versions that it has parsed, the latest last. What a pass asks the parser is not part of it. -/
structure Log where
  batches : List Batch
  answers : List Answer

/-- The last answer of the parser is on this text. -/
def Log.EndsWith (log : Log) (parser : Parser) (text : String) : Prop :=
  ∃ answer, log.answers.getLast? = some answer ∧ answer.text = text ∧
    parser.parse answer.before answer.text = .ok answer.unit

namespace Pipeline

/-- Run some passes. The state is the one that the pass after them is given. -/
def reach (p : Pipeline) (c : Context) (text : String) : Run State := do
  let unit ← Run.ask c.parser (.parse c.path) text
  p.foldlM (Step.run c) ((State.ofText text c.mainContract).parsed unit)

/-- Apply the edits that are left after the last pass. -/
def finish (c : Context) (last : State) : Run Output := do
  let final ← last.commit c.parser "finalize"
  return ⟨final.source.text, final.work.metadata, final.work.warnings⟩

theorem run_eq (p : Pipeline) (c : Context) (text : String) :
    p.run c text = p.reach c text >>= finish c := by
  unfold run reach
  rw [bind_assoc]
  apply bind_congr
  intro unit
  apply bind_congr
  intro last
  unfold finish
  cases hEmpty : last.work.batch.isEmpty with
  | true => rw [State.commit_of_isEmpty _ _ hEmpty]; rfl
  | false => rfl

theorem reach_concat (done : Pipeline) (step : Step) (c : Context) (text : String) :
    (done ++ [step]).reach c text = done.reach c text >>= fun s => step.run c s := by
  simp only [reach, List.foldlM_append, List.foldlM_cons, List.foldlM_nil, bind_assoc, bind_pure]

/-- The course of a run. Each pass is given the state that those before it have left. Edits are
applied after a barrier if there are any. -/
inductive Reaches (c : Context) (text : String) :
    Pipeline → State → Log → List String → Prop where
  | start {unit : Outline} (hUnit : c.parser.parse [] text = .ok unit) :
      Reaches c text [] ((State.ofText text c.mainContract).parsed unit) ⟨[], [⟨[], text, unit⟩]⟩
        [text]
  | wait {done : Pipeline} {step : Step} {s : State} {log : Log} {asked after : List String}
      {work : Work} (prior : Reaches c text done s log asked)
      (hPass : (step.pass.run c s).Gives asked work after)
      (hWait : step.isBarrier = false ∨ work.batch.isEmpty = true) :
      Reaches c text (done ++ [step]) { s with work } log after
  | commit {done : Pipeline} {step : Step} {s : State} {log : Log} {asked after : List String}
      {work : Work} {source : Source} {unit : Outline} (prior : Reaches c text done s log asked)
      (hPass : (step.pass.run c s).Gives asked work after) (hBarrier : step.isBarrier = true)
      (hEdits : work.batch.isEmpty = false) (hCommit : work.batch.commit s.source = .ok source)
      (hUnit : c.parser.parse after source.text = .ok unit) :
      Reaches c text (done ++ [step]) (State.applied { s with work } source unit)
        ⟨log.batches ++ [work.batch], log.answers ++ [⟨after, source.text, unit⟩]⟩
        (after ++ [source.text])

/-- The end of a run, where edits that are left are applied too. -/
inductive Ends (c : Context) (text : String) (p : Pipeline) :
    Output → Log → List String → Prop where
  | clean {s : State} {log : Log} {asked : List String} (prior : Reaches c text p s log asked)
      (hEmpty : s.work.batch.isEmpty = true) :
      Ends c text p ⟨s.source.text, s.work.metadata, s.work.warnings⟩ log asked
  | commit {s : State} {log : Log} {asked : List String} {source : Source} {unit : Outline}
      (prior : Reaches c text p s log asked) (hEdits : s.work.batch.isEmpty = false)
      (hCommit : s.work.batch.commit s.source = .ok source)
      (hUnit : c.parser.parse asked source.text = .ok unit) :
      Ends c text p ⟨source.text, s.work.metadata, s.work.warnings⟩
        ⟨log.batches ++ [s.work.batch], log.answers ++ [⟨asked, source.text, unit⟩]⟩
        (asked ++ [source.text])

/-- One more pass leads on from every state that has been reached. -/
theorem exists_reaches_concat_iff {c : Context} {text : String} {done : Pipeline} {step : Step}
    {next : State} {after : List String} :
    (∃ log, Reaches c text (done ++ [step]) next log after) ↔
      ∃ s log asked, Reaches c text done s log asked ∧ (step.run c s).Gives asked next after := by
  constructor
  · rintro ⟨log, h⟩
    generalize hAll : done ++ [step] = all at h
    cases h with
    | start => simp at hAll
    | @wait done' step' s log asked after work prior hPass hWait =>
        obtain ⟨rfl, hStep⟩ := List.append_inj' hAll rfl
        obtain rfl := List.singleton_inj.mp hStep
        refine ⟨s, log, asked, prior, ?_⟩
        unfold Step.run
        rw [Run.gives_bind_iff]
        refine ⟨work, after, Run.gives_within_iff.mpr hPass, ?_⟩
        have hOpen : (if step.isBarrier then State.commit { s with work } c.parser step.pass.name
            else pure { s with work }) = pure { s with work } := by
          rcases hWait with hOpen | hEmpty
          · rw [if_neg (by simp [hOpen])]
          · rw [State.commit_of_isEmpty _ _ hEmpty, ite_self]
        show Run.Gives (if step.isBarrier then _ else _) _ _ _
        rw [hOpen]
        exact Run.gives_pure_iff.mpr ⟨rfl, rfl⟩
    | @commit done' step' s log asked after work source unit prior hPass hBarrier hEdits hCommit
        hUnit =>
        obtain ⟨rfl, hStep⟩ := List.append_inj' hAll rfl
        obtain rfl := List.singleton_inj.mp hStep
        refine ⟨s, log, asked, prior, ?_⟩
        unfold Step.run
        rw [Run.gives_bind_iff]
        refine ⟨work, after, Run.gives_within_iff.mpr hPass, ?_⟩
        rw [if_pos hBarrier, State.gives_commit_iff hEdits]
        exact ⟨source, unit, hCommit, hUnit, rfl, rfl⟩
  · rintro ⟨s, log, asked, prior, hStep⟩
    unfold Step.run at hStep
    rw [Run.gives_bind_iff] at hStep
    obtain ⟨work, middle, hPass, hRest⟩ := hStep
    rw [Run.gives_within_iff] at hPass
    cases hBarrier : step.isBarrier with
    | false =>
        rw [if_neg (by simp [hBarrier]), Run.gives_pure_iff] at hRest
        obtain ⟨rfl, rfl⟩ := hRest
        exact ⟨log, .wait prior hPass (.inl hBarrier)⟩
    | true =>
        rw [if_pos hBarrier] at hRest
        cases hEmpty : work.batch.isEmpty with
        | true =>
            rw [State.commit_of_isEmpty _ _ hEmpty, Run.gives_pure_iff] at hRest
            obtain ⟨rfl, rfl⟩ := hRest
            exact ⟨log, .wait prior hPass (.inr hEmpty)⟩
        | false =>
            rw [State.gives_commit_iff hEmpty] at hRest
            obtain ⟨source, unit, hCommit, hUnit, rfl, rfl⟩ := hRest
            exact ⟨_, .commit prior hPass hBarrier hEmpty hCommit hUnit⟩

/-- The course of a run is what the passes compute one after the other. -/
theorem gives_reach_iff {c : Context} {text : String} {done : Pipeline} {s : State}
    {asked : List String} :
    (done.reach c text).Gives [] s asked ↔ ∃ log, Reaches c text done s log asked := by
  induction done using List.reverseRecOn generalizing s asked with
  | nil =>
      unfold reach
      simp only [List.foldlM_nil, Run.gives_bind_iff, Run.gives_ask_iff, Run.gives_pure_iff]
      constructor
      · rintro ⟨unit, _, ⟨hUnit, rfl⟩, rfl, rfl⟩
        exact ⟨_, .start hUnit⟩
      · rintro ⟨log, h⟩
        generalize hNil : ([] : Pipeline) = none at h
        cases h with
        | start hUnit => exact ⟨_, _, ⟨hUnit, rfl⟩, rfl, rfl⟩
        | wait => simp at hNil
        | commit => simp at hNil
  | append_singleton done step ih =>
      rw [reach_concat, Run.gives_bind_iff, exists_reaches_concat_iff]
      constructor
      · rintro ⟨middle, asked', hDone, hStep⟩
        obtain ⟨log, prior⟩ := ih.mp hDone
        exact ⟨middle, log, asked', prior, hStep⟩
      · rintro ⟨middle, log, asked', prior, hStep⟩
        exact ⟨middle, asked', ih.mpr ⟨log, prior⟩, hStep⟩

/-- A run gives an output if and only if it ends with it. -/
theorem gives_run_iff {c : Context} {text : String} {p : Pipeline} {output : Output}
    {asked : List String} :
    (p.run c text).Gives [] output asked ↔ ∃ log, Ends c text p output log asked := by
  rw [run_eq, Run.gives_bind_iff]
  constructor
  · rintro ⟨last, middle, hReach, hFinish⟩
    obtain ⟨log, prior⟩ := gives_reach_iff.mp hReach
    unfold finish at hFinish
    rw [Run.gives_bind_iff] at hFinish
    obtain ⟨final, after, hFinal, hOutput⟩ := hFinish
    rw [Run.gives_pure_iff] at hOutput
    obtain ⟨rfl, rfl⟩ := hOutput
    cases hEmpty : last.work.batch.isEmpty with
    | true =>
        rw [State.commit_of_isEmpty _ _ hEmpty, Run.gives_pure_iff] at hFinal
        obtain ⟨rfl, rfl⟩ := hFinal
        exact ⟨log, .clean prior hEmpty⟩
    | false =>
        rw [State.gives_commit_iff hEmpty] at hFinal
        obtain ⟨source, unit, hCommit, hUnit, rfl, rfl⟩ := hFinal
        have hEnds := Ends.commit prior hEmpty hCommit hUnit
        exact ⟨_, hEnds⟩
  · rintro ⟨log, h⟩
    cases h with
    | @clean s log asked prior hEmpty =>
        refine ⟨s, asked, gives_reach_iff.mpr ⟨log, prior⟩, ?_⟩
        unfold finish
        rw [State.commit_of_isEmpty _ _ hEmpty, pure_bind]
        exact Run.gives_pure_iff.mpr ⟨rfl, rfl⟩
    | @commit s log asked source unit prior hEdits hCommit hUnit =>
        refine ⟨s, asked, gives_reach_iff.mpr ⟨log, prior⟩, ?_⟩
        unfold finish
        rw [Run.gives_bind_iff]
        refine ⟨_, _, (State.gives_commit_iff hEdits).mpr ⟨source, unit, hCommit, hUnit, rfl, rfl⟩, ?_⟩
        exact Run.gives_pure_iff.mpr ⟨rfl, rfl⟩

/-- The index of a state is for the current version. It holds the last answer of the parser, which is
the one on the current text. -/
def Indexed (parser : Parser) (s : State) (answers : List Answer) : Prop :=
  ∃ (i : Index) (answer : Answer), s.index = some i ∧ s.currentIndex = .ok i ∧
    i.version = s.source.version ∧ i.text = s.source.text ∧ i.unit = answer.unit ∧
    answers.getLast? = some answer ∧ answer.text = s.source.text ∧
    parser.parse answer.before answer.text = .ok answer.unit

/-- A state belongs to one version of its source, and the version counts the batches. -/
structure InSync (parser : Parser) (text : String) (s : State) (log : Log) : Prop where
  indexed : Indexed parser s log.answers
  version : s.source.version = log.batches.length
  batches : ∀ b ∈ log.batches, b.isEmpty = false
  initial : s.source.initial = text

/-- What the parser answers to the current text is its index. -/
theorem indexed_of_parse {parser : Parser} {before : List String} {source : Source} {unit : Outline}
    (work : Work) (answers : List Answer) (hUnit : parser.parse before source.text = .ok unit) :
    Indexed parser ⟨source, some (.ofSource source unit), work⟩
      (answers ++ [⟨before, source.text, unit⟩]) := by
  refine ⟨.ofSource source unit, ⟨before, source.text, unit⟩, rfl, ?_, rfl, rfl, rfl, ?_, rfl, hUnit⟩
  · show (if source.version = source.version then _ else _) = _
    rw [if_pos rfl]
  · exact List.getLast?_concat

/-- The next version of a source is counted when its batch is. -/
theorem version_commit {source next : Source} {b : Batch} {batches : List Batch}
    (hVersion : source.version = batches.length) (hEdits : b.isEmpty = false)
    (hCommit : b.commit source = .ok next) :
    next.version = (batches ++ [b]).length ∧ next.initial = source.initial := by
  obtain ⟨text, rfl⟩ := Batch.exists_next_of_commit hEdits hCommit
  refine ⟨?_, rfl⟩
  show source.version + 1 = _
  rw [hVersion, List.length_append, List.length_singleton]

/-- Every state that is reached belongs to one version. -/
theorem Reaches.inSync {c : Context} {text : String} {done : Pipeline} {s : State} {log : Log}
    {asked : List String} (h : Reaches c text done s log asked) : InSync c.parser text s log := by
  induction h with
  | start hUnit =>
      exact ⟨indexed_of_parse _ [] hUnit, rfl, by simp, rfl⟩
  | wait prior hPass hWait ih =>
      -- A pass hands on work only, and the index stays with the source.
      exact ⟨ih.indexed, ih.version, ih.batches, ih.initial⟩
  | @commit done step s log asked after work source unit prior hPass hBarrier hEdits hCommit hUnit
      ih =>
      obtain ⟨hVersion, hInitial⟩ := version_commit ih.version hEdits hCommit
      refine ⟨indexed_of_parse _ _ hUnit, hVersion, ?_, hInitial.trans ih.initial⟩
      intro b hb
      rcases List.mem_append.mp hb with hOld | hNew
      · exact ih.batches b hOld
      · rw [List.mem_singleton.mp hNew]
        exact hEdits

/-- The text that a run hands out is the last one that was parsed. -/
theorem Ends.endsWith {c : Context} {text : String} {p : Pipeline} {output : Output} {log : Log}
    {asked : List String} (h : Ends c text p output log asked) :
    log.EndsWith c.parser output.source := by
  cases h with
  | clean prior hEmpty =>
      obtain ⟨i, answer, _, _, _, _, _, hLast, hText, hUnit⟩ := prior.inSync.indexed
      exact ⟨answer, hLast, hText, hUnit⟩
  | commit prior hEdits hCommit hUnit =>
      exact ⟨_, List.getLast?_concat, rfl, hUnit⟩

/-- From where a pass is invoked, a run goes on with it. -/
theorem ending_run_of_reach {done rest : Pipeline} {step : Step} {c : Context} {text : String}
    {s : State} {asked : List String} (h : (done.reach c text).Gives [] s asked) :
    ((done ++ step :: rest).run c text).ending [] =
      (step.run c s >>= fun next => rest.foldlM (Step.run c) next >>= finish c).ending asked := by
  rw [run_eq]
  have hAll : (done ++ step :: rest).reach c text =
      done.reach c text >>= fun s => step.run c s >>= fun next => rest.foldlM (Step.run c) next := by
    simp only [reach, List.foldlM_append, List.foldlM_cons, bind_assoc]
  rw [hAll, bind_assoc, Run.ending_bind, h]
  simp only [bind_assoc]

/-- Whenever the turn of a pass has come, the run goes on with it from a state that belongs to one
version of the source. When all passes succeed, the result is the last text that was parsed. -/
theorem run_inSync (p : Pipeline) (c : Context) (text : String) :
    (∀ done step rest s asked, p = done ++ step :: rest → (done.reach c text).Gives [] s asked →
      (p.run c text).ending [] =
        (step.run c s >>= fun next => rest.foldlM (Step.run c) next >>= finish c).ending asked ∧
      ∃ log, Reaches c text done s log asked ∧ InSync c.parser text s log) ∧
    ∀ output asked, (p.run c text).Gives [] output asked →
      ∃ log, Ends c text p output log asked ∧ log.EndsWith c.parser output.source := by
  constructor
  · intro done step rest s asked hParts hReach
    obtain ⟨log, prior⟩ := gives_reach_iff.mp hReach
    rw [hParts]
    exact ⟨ending_run_of_reach hReach, log, prior, prior.inSync⟩
  · intro output asked hRun
    obtain ⟨log, hEnds⟩ := gives_run_iff.mp hRun
    exact ⟨log, hEnds, hEnds.endsWith⟩

/-- An edit that is applied at once, and one that is left to the end. -/
def twoEdits : Pipeline :=
  [⟨.edit (.point 0) "a", true⟩, ⟨.edit (.point 2) "c", false⟩]

/-- A parser to which every text is a file with nothing in it. -/
def anyText : Context := ⟨⟨"any", fun _ _ => .ok ⟨[], default⟩⟩, Library.empty.resolver, "A", "a.sol"⟩

theorem twoEdits_inSync :
    (∃ s log, (reach [⟨.edit (.point 0) "a", true⟩] anyText "b").Gives [] s ["b", "ab"] ∧
      s.source.text = "ab" ∧ s.source.version = 1 ∧ InSync anyText.parser "b" s log) ∧
    ∃ output log, (twoEdits.run anyText "b").Gives [] output ["b", "ab", "abc"] ∧
      output.source = "abc" ∧ Log.EndsWith log anyText.parser "abc" := by
  have hReach : (reach [⟨.edit (.point 0) "a", true⟩] anyText "b").Gives []
      ⟨⟨"ab", "b", 1⟩, some ⟨⟨[], default⟩, "ab", 1⟩, .start "A"⟩ ["b", "ab"] := by
    cbv
  have hRun : (twoEdits.run anyText "b").Gives [] ⟨"abc", .start "A", []⟩ ["b", "ab", "abc"] := by
    cbv
  obtain ⟨hPasses, hResult⟩ := run_inSync twoEdits anyText "b"
  obtain ⟨_, log, _, hSync⟩ := hPasses _ _ _ _ _ rfl hReach
  obtain ⟨last, _, hLast⟩ := hResult _ _ hRun
  exact ⟨⟨_, log, hReach, rfl, rfl, hSync⟩, _, last, hRun, rfl, hLast⟩

end Pipeline

end SolNorm
