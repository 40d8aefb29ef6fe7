import SolNorm.Proofs.Pipeline.Sync

/-!
How runs fail. The text at the start may be refused, a pass may fail, the edits that are applied may
lead to a text that is refused, or they may not fit the text at all. The error of a pass and that of
a refused text name the pass; the error of edits that do not fit names none.
-/

namespace SolNorm

namespace Error

/-- The pass that an error names: the one that was running, or the one after which a text was
refused. -/
def pass? : Error → Option String
  | .inPass pass _ => some pass
  | .regression pass _ => some pass
  | _ => none

/-- A pass is attached once, and only to an error that names none. -/
theorem within_eq (pass : String) (e : Error) :
    e.within pass = if e.pass?.isNone then .inPass pass e else e := by
  cases e <;> rfl

theorem pass?_within_ne_none (pass : String) (e : Error) : (e.within pass).pass? ≠ none := by
  cases e <;> simp [within, pass?]

end Error

/-- Edits are not applied only because one of them does not fit. -/
theorem Batch.commit_eq_error {b : Batch} {source : Source} {e : Error}
    (h : b.commit source = .error e) :
    ∃ edit ∈ b.edits, source.fits edit = false ∧
      e = .misfitEdit edit.span source.version source.size := by
  unfold commit at h
  split at h
  · cases h
  · split at h
    · rename_i edit hFind
      cases h
      exact ⟨edit, List.mem_of_find?_eq_some hFind, by simpa using List.find?_some hFind, rfl⟩
    · cases h

namespace Pipeline

variable {c : Context} {text : String} {p : Pipeline}

/-- The edits that wait in a state are to be applied under a name: that of the pass before a barrier,
or the one for what is left after all passes. -/
inductive Due (c : Context) (text : String) (p : Pipeline) :
    String → State → List String → Prop where
  | barrier {done rest : Pipeline} {step : Step} {s : State} {log : Log} {asked after : List String}
      {work : Work} (hp : p = done ++ step :: rest) (prior : Reaches c text done s log asked)
      (hPass : (step.pass.run c s).Gives asked work after) (hBarrier : step.isBarrier = true) :
      Due c text p step.pass.name { s with work } after
  | finish {s : State} {log : Log} {asked : List String} (prior : Reaches c text p s log asked) :
      Due c text p "finalize" s asked

/-- The text at the start is refused. -/
def Refused (c : Context) (text : String) (e : Error) (asked : List String) : Prop :=
  ∃ cause, c.parser.parse [] text = .error cause ∧ e = .parse c.path cause ∧ asked = [text]

/-- A pass fails when its turn has come. Its error is wrapped once, unless it names a pass already. -/
def FailsInside (c : Context) (text : String) (p : Pipeline) (e : Error) (asked : List String) :
    Prop :=
  ∃ done step rest s log before cause, p = done ++ step :: rest ∧
    Reaches c text done s log before ∧ (step.pass.run c s).Fails before cause asked ∧
    e = if cause.pass?.isNone then .inPass step.pass.name cause else cause

/-- Edits are applied, and the new version is refused. -/
def Regresses (c : Context) (text : String) (p : Pipeline) (e : Error) (asked : List String) :
    Prop :=
  ∃ name s before source cause, Due c text p name s before ∧ s.work.batch.isEmpty = false ∧
    s.work.batch.commit s.source = .ok source ∧
    c.parser.parse before source.text = .error cause ∧ e = .regression name cause ∧
    asked = before ++ [source.text]

/-- Edits are to be applied, and one of them does not fit. -/
def Misfits (c : Context) (text : String) (p : Pipeline) (e : Error) (asked : List String) : Prop :=
  ∃ name s, Due c text p name s asked ∧ ∃ edit ∈ s.work.batch.edits,
    s.source.fits edit = false ∧ s.work.batch.commit s.source = .error e ∧
    e = .misfitEdit edit.span s.source.version s.source.size

/-- Applying edits that are due fails in two ways. -/
theorem fails_due_iff {name : String} {s : State} {before asked : List String} {e : Error} :
    (s.commit c.parser name).Fails before e asked ↔
      (s.work.batch.commit s.source = .error e ∧ before = asked) ∨
      ∃ source cause, s.work.batch.isEmpty = false ∧ s.work.batch.commit s.source = .ok source ∧
        c.parser.parse before source.text = .error cause ∧ Error.regression name cause = e ∧
        before ++ [source.text] = asked := by
  cases hEmpty : s.work.batch.isEmpty with
  | true =>
      rw [State.commit_of_isEmpty _ _ hEmpty, Batch.commit_of_isEmpty hEmpty]
      simp
  | false =>
      rw [State.fails_commit_iff hEmpty]
      simp

/-- A commit that is due fails because the new text cannot be parsed, or because an edit does not
fit. -/
theorem fails_of_due {name : String} {s : State} {before asked : List String} {e : Error}
    (hDue : Due c text p name s before) (h : (s.commit c.parser name).Fails before e asked) :
    Regresses c text p e asked ∨ Misfits c text p e asked := by
  rcases fails_due_iff.mp h with ⟨hCommit, rfl⟩ | ⟨source, cause, hEdits, hCommit, hText, rfl, rfl⟩
  · obtain ⟨edit, hMem, hFits, hError⟩ := Batch.commit_eq_error hCommit
    exact .inr ⟨name, s, hDue, edit, hMem, hFits, hCommit, hError⟩
  · exact .inl ⟨name, s, before, source, cause, hDue, hEdits, hCommit, hText, rfl, rfl⟩

/-- A step fails with its pass, or when the edits are applied after it. -/
theorem fails_step_iff {step : Step} {s : State} {before asked : List String} {e : Error} :
    (step.run c s).Fails before e asked ↔
      (∃ cause, (step.pass.run c s).Fails before cause asked ∧
        e = if cause.pass?.isNone then .inPass step.pass.name cause else cause) ∨
      ∃ work middle, (step.pass.run c s).Gives before work middle ∧ step.isBarrier = true ∧
        (State.commit { s with work } c.parser step.pass.name).Fails middle e asked := by
  unfold Step.run
  rw [Run.fails_bind_iff, Run.fails_within_iff]
  apply or_congr
  · simp only [Error.within_eq, eq_comm (a := e)]
  · simp only [Run.gives_within_iff]
    refine exists_congr fun work => exists_congr fun middle => and_congr_right fun _ => ?_
    cases step.isBarrier <;> simp

/-- A step fails when its turn has come. -/
def FailsAt (c : Context) (text : String) (p : Pipeline) (e : Error) (asked : List String) : Prop :=
  ∃ (done : Pipeline) (step : Step) (rest : Pipeline) (s : State) (before : List String),
    p = done ++ step :: rest ∧ (done.reach c text).Gives [] s before ∧
    (step.run c s).Fails before e asked

/-- The run of all steps fails if the first text is refused or if one of them fails. -/
theorem fails_reach_iff {e : Error} {asked : List String} :
    (p.reach c text).Fails [] e asked ↔ Refused c text e asked ∨ FailsAt c text p e asked := by
  induction p using List.reverseRecOn with
  | nil =>
      unfold reach Refused FailsAt
      simp only [List.foldlM_nil, Run.fails_bind_iff, Run.fails_ask_iff, Run.not_fails_pure,
        and_false, exists_false, or_false, List.nil_append]
      constructor
      · rintro ⟨⟨cause, hCause, rfl⟩, rfl⟩
        exact .inl ⟨cause, hCause, rfl, rfl⟩
      · rintro (⟨cause, hCause, rfl, rfl⟩ | ⟨_, _, _, _, _, hp, _⟩)
        · exact ⟨⟨cause, hCause, rfl⟩, rfl⟩
        · simp at hp
  | append_singleton earlier last ih =>
      rw [reach_concat, Run.fails_bind_iff, ih]
      constructor
      · rintro ((hRefused | ⟨done, step, rest, s, before, rfl, hReach, hStep⟩) |
          ⟨s, before, hReach, hStep⟩)
        · exact .inl hRefused
        · exact .inr ⟨done, step, rest ++ [last], s, before, by simp, hReach, hStep⟩
        · exact .inr ⟨earlier, last, [], s, before, rfl, hReach, hStep⟩
      · rintro (hRefused | ⟨done, step, rest, s, before, hp, hReach, hStep⟩)
        · exact .inl (.inl hRefused)
        · -- The failing pass is the last one, or it comes before.
          rcases List.eq_nil_or_concat rest with rfl | ⟨init, x, rfl⟩
          · obtain ⟨rfl, hLast⟩ := List.append_inj' hp rfl
            obtain rfl := List.singleton_inj.mp hLast
            exact .inr ⟨s, before, hReach, hStep⟩
          · rw [List.concat_eq_append, ← List.cons_append, ← List.append_assoc] at hp
            obtain ⟨rfl, _⟩ := List.append_inj' hp rfl
            exact .inl (.inr ⟨done, step, init, s, before, rfl, hReach, hStep⟩)

/-- A run fails when its first text is refused, when a pass fails, when the edits lead to a text that
is refused, or when one of them does not fit. The error names no pass exactly in the first case and
in the last one. -/
theorem fails_run_iff (p : Pipeline) (c : Context) (text : String) (e : Error)
    (asked : List String) :
    ((p.run c text).Fails [] e asked ↔ Refused c text e asked ∨ FailsInside c text p e asked ∨
      Regresses c text p e asked ∨ Misfits c text p e asked) ∧
    ((p.run c text).Fails [] e asked →
      (e.pass? = none ↔ Refused c text e asked ∨ Misfits c text p e asked)) := by
  have hFails : (p.run c text).Fails [] e asked ↔ Refused c text e asked ∨
      FailsInside c text p e asked ∨ Regresses c text p e asked ∨ Misfits c text p e asked := by
    rw [run_eq, Run.fails_bind_iff, fails_reach_iff]
    constructor
    · rintro ((hRefused | ⟨done, step, rest, s, before, hp, hReach, hStep⟩) |
        ⟨last, before, hReach, hFinish⟩)
      · exact .inl hRefused
      · obtain ⟨log, prior⟩ := gives_reach_iff.mp hReach
        rcases fails_step_iff.mp hStep with ⟨cause, hCause, hError⟩ |
          ⟨work, middle, hWork, hBarrier, hCommit⟩
        · exact .inr (.inl ⟨done, step, rest, s, log, before, cause, hp, prior, hCause, hError⟩)
        · exact .inr (.inr (fails_of_due (.barrier hp prior hWork hBarrier) hCommit))
      · obtain ⟨log, prior⟩ := gives_reach_iff.mp hReach
        rcases Run.fails_bind_iff.mp hFinish with hCommit | ⟨final, middle, _, hPure⟩
        · exact .inr (.inr (fails_of_due (.finish prior) hCommit))
        · exact (Run.not_fails_pure hPure).elim
    · -- Edits that are due and cannot be applied end the run.
      have hDue {name : String} {s : State} {before : List String}
          (hDue : Due c text p name s before)
          (hCommit : (s.commit c.parser name).Fails before e asked) :
          (Refused c text e asked ∨ FailsAt c text p e asked) ∨
          ∃ last before, (p.reach c text).Gives [] last before ∧
            (finish c last).Fails before e asked := by
        cases hDue with
        | barrier hp prior hPass hBarrier =>
            exact .inl (.inr ⟨_, _, _, _, _, hp, gives_reach_iff.mpr ⟨_, prior⟩,
              fails_step_iff.mpr (.inr ⟨_, _, hPass, hBarrier, hCommit⟩)⟩)
        | finish prior =>
            exact .inr ⟨_, _, gives_reach_iff.mpr ⟨_, prior⟩,
              Run.fails_bind_iff.mpr (.inl hCommit)⟩
      rintro (hRefused | ⟨done, step, rest, s, log, before, cause, hp, prior, hCause, hError⟩ |
        ⟨name, s, before, source, cause, hWaits, hEdits, hCommit, hText, rfl, rfl⟩ |
        ⟨name, s, hWaits, _, _, _, hCommit, _⟩)
      · exact .inl (.inl hRefused)
      · exact .inl (.inr ⟨done, step, rest, s, before, hp, gives_reach_iff.mpr ⟨log, prior⟩,
          fails_step_iff.mpr (.inl ⟨cause, hCause, hError⟩)⟩)
      · exact hDue hWaits (fails_due_iff.mpr
          (.inr ⟨source, cause, hEdits, hCommit, hText, rfl, rfl⟩))
      · exact hDue hWaits (fails_due_iff.mpr (.inl ⟨hCommit, rfl⟩))
  refine ⟨hFails, fun h => ⟨fun hUnnamed => ?_, ?_⟩⟩
  · rcases hFails.mp h with hRefused | ⟨_, step, _, _, _, _, cause, _, _, _, rfl⟩ |
      ⟨name, _, _, _, cause, _, _, _, _, rfl, _⟩ | hMisfits
    · exact .inl hRefused
    · rw [← Error.within_eq] at hUnnamed
      exact absurd hUnnamed (Error.pass?_within_ne_none _ cause)
    · cases hUnnamed
    · exact .inr hMisfits
  · rintro (⟨cause, _, rfl, _⟩ | ⟨_, _, _, _, _, _, _, rfl⟩)
    · rfl
    · rfl

/-- An edit beyond the end of the text is staged without complaint. When it is to be applied after its
pass, the run fails, and the error does not name the pass. -/
theorem beyond_misfits :
    (run [⟨.edit ⟨5, 6⟩ "a", true⟩] anyText "b").Fails [] (.misfitEdit ⟨5, 6⟩ 0 1) ["b"] ∧
      (Error.misfitEdit ⟨5, 6⟩ 0 1).pass? = none ∧
      Misfits anyText "b" [⟨.edit ⟨5, 6⟩ "a", true⟩] (.misfitEdit ⟨5, 6⟩ 0 1) ["b"] := by
  have hRun : (run [⟨.edit ⟨5, 6⟩ "a", true⟩] anyText "b").Fails [] (.misfitEdit ⟨5, 6⟩ 0 1)
      ["b"] := by
    cbv
  obtain ⟨_, hUnnamed⟩ :=
    fails_run_iff [⟨.edit ⟨5, 6⟩ "a", true⟩] anyText "b" (.misfitEdit ⟨5, 6⟩ 0 1) ["b"]
  refine ⟨hRun, rfl, ?_⟩
  rcases (hUnnamed hRun).mp rfl with ⟨_, hCause, _⟩ | hMisfits
  · cases hCause
  · exact hMisfits

end Pipeline

end SolNorm
