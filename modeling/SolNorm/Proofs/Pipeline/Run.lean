import SolNorm.Run
import SolNorm.Proofs.Outcome

/-!
How runs end. A run starts with the texts that the parser has been asked about before, and it ends
with a result or with an error; a sequence of runs ends with the first error.
-/

namespace SolNorm.Run

variable {α β : Type}

/-- The end of a run, and the texts that the parser has then been asked about. -/
def ending (run : Run α) (before : List String) : Except Error α × List String := run before

/-- A run succeeds with a result. -/
def Gives (run : Run α) (before : List String) (a : α) (after : List String) : Prop :=
  run.ending before = (.ok a, after)

/-- A run ends with an error. -/
def Fails (run : Run α) (before : List String) (e : Error) (after : List String) : Prop :=
  run.ending before = (.error e, after)

/-- A failure of the first part ends the run, with what was asked so far. -/
theorem ending_bind (x : Run α) (f : α → Run β) (before : List String) :
    (x >>= f).ending before =
      match x.ending before with
      | (.ok a, middle) => (f a).ending middle
      | (.error e, middle) => (.error e, middle) := by
  unfold ending
  simp only [bind, ExceptT.bind, ExceptT.mk, StateT.bind, ExceptT.bindCont]
  cases x before with
  | mk result middle => cases result <;> rfl

/-- A run gives what its second part gives where the first one left off. -/
theorem gives_bind_iff {x : Run α} {f : α → Run β} {before after : List String} {b : β} :
    (x >>= f).Gives before b after ↔
      ∃ a middle, x.Gives before a middle ∧ (f a).Gives middle b after := by
  unfold Gives
  rw [ending_bind]
  cases x.ending before with
  | mk result middle => cases result <;> simp

/-- A run fails as its first part does, or as the second one does after it. -/
theorem fails_bind_iff {x : Run α} {f : α → Run β} {before after : List String} {e : Error} :
    (x >>= f).Fails before e after ↔ x.Fails before e after ∨
      ∃ a middle, x.Gives before a middle ∧ (f a).Fails middle e after := by
  unfold Gives Fails
  rw [ending_bind]
  cases x.ending before with
  | mk result middle => cases result <;> simp

@[simp] theorem gives_pure_iff {a b : α} {before after : List String} :
    (pure a : Run α).Gives before b after ↔ a = b ∧ before = after := by
  show (Except.ok a, before) = (Except.ok b, after) ↔ _
  simp

@[simp] theorem not_fails_pure {a : α} {e : Error} {before after : List String} :
    ¬ (pure a : Run α).Fails before e after := by
  intro h
  cases h

theorem ending_ofExcept (result : Except Error α) (before : List String) :
    (ofExcept result).ending before = (result, before) := rfl

theorem ending_ask (p : Parser) (refusal : ParseError → Error) (text : String)
    (before : List String) :
    (ask p refusal text).ending before =
      ((p.parse before text).mapError refusal, before ++ [text]) := rfl

theorem ofExcept_ok (a : α) : ofExcept (.ok a) = pure a := rfl

@[simp] theorem gives_ofExcept_iff {result : Except Error α} {a : α} {before after : List String} :
    (ofExcept result).Gives before a after ↔ result = .ok a ∧ before = after := by
  rw [Gives, ending_ofExcept]
  simp

@[simp] theorem fails_ofExcept_iff {result : Except Error α} {e : Error}
    {before after : List String} :
    (ofExcept result).Fails before e after ↔ result = .error e ∧ before = after := by
  rw [Fails, ending_ofExcept]
  simp

/-- To ask the parser gives its answer and is remembered. -/
theorem gives_ask_iff {p : Parser} {refusal : ParseError → Error} {text : String} {unit : Outline}
    {before after : List String} :
    (ask p refusal text).Gives before unit after ↔
      p.parse before text = .ok unit ∧ before ++ [text] = after := by
  rw [Gives, ending_ask]
  cases p.parse before text <;> simp [Except.mapError]

/-- A refusal of the parser is reported and is remembered as well. -/
theorem fails_ask_iff {p : Parser} {refusal : ParseError → Error} {text : String} {e : Error}
    {before after : List String} :
    (ask p refusal text).Fails before e after ↔
      (∃ cause, p.parse before text = .error cause ∧ refusal cause = e) ∧
        before ++ [text] = after := by
  rw [Fails, ending_ask]
  cases p.parse before text <;> simp [Except.mapError]

theorem ending_within (pass : String) (run : Run α) (before : List String) :
    (within pass run).ending before =
      ((run.ending before).1.mapError (Error.within pass), (run.ending before).2) := rfl

/-- Inside a pass a run gives what it gives by itself. -/
theorem gives_within_iff {pass : String} {run : Run α} {a : α} {before after : List String} :
    (within pass run).Gives before a after ↔ run.Gives before a after := by
  unfold Gives
  rw [ending_within]
  cases run.ending before with
  | mk result middle => cases result <;> simp [Except.mapError]

/-- Inside a pass a failure is reported with the name of the pass. -/
theorem fails_within_iff {pass : String} {run : Run α} {e : Error} {before after : List String} :
    (within pass run).Fails before e after ↔
      ∃ cause, run.Fails before cause after ∧ cause.within pass = e := by
  unfold Fails
  rw [ending_within]
  cases run.ending before with
  | mk result middle => cases result <;> simp [Except.mapError, and_comm]

end SolNorm.Run
