import Mathlib

/-!
Computations that can fail. A sequence of them succeeds exactly when each of its parts does, which
lets a successful run be taken apart, and what every step keeps is kept by a whole run.
-/

namespace SolNorm.Outcome

variable {ε α β : Type}

/-- A sequence succeeds exactly when its first part gives a value and the second succeeds on it. -/
theorem bind_eq_ok_iff {x : Except ε α} {f : α → Except ε β} {b : β} :
    (x >>= f) = .ok b ↔ ∃ a, x = .ok a ∧ f a = .ok b := by
  cases x with
  | error e => simp [bind, Except.bind]
  | ok a => simp [bind, Except.bind]

@[simp] theorem pure_eq_ok_iff {a b : α} : (pure a : Except ε α) = .ok b ↔ a = b := by
  simp [pure, Except.pure]

@[simp] theorem throw_eq_ok_iff {e : ε} {b : α} : (throw e : Except ε α) = .ok b ↔ False := by
  simp [throw, throwThe, MonadExceptOf.throw]

/-- A computation whose result is turned into something else succeeds exactly when it does. -/
theorem bind_pure_eq_ok_iff {x : Except ε α} {f : α → β} {b : β} :
    (x >>= fun a => pure (f a)) = .ok b ↔ ∃ a, x = .ok a ∧ f a = b := by
  simp only [bind_eq_ok_iff, pure_eq_ok_iff]

theorem throw_bind {e : ε} {f : α → Except ε β} : ((throw e : Except ε α) >>= f) = throw e :=
  rfl

/-- What a result is turned into comes from a result. -/
theorem map_eq_ok_iff {x : Except ε α} {f : α → β} {b : β} :
    x.map f = .ok b ↔ ∃ a, x = .ok a ∧ f a = b := by
  cases x with
  | error e => simp [Except.map]
  | ok a => simp [Except.map]

/-- An entry of the second of two lists that are related entry by entry has its partner. -/
theorem exists_left_of_mem {R : α → β → Prop} {l : List α} {r : List β} {b : β}
    (h : List.Forall₂ R l r) (hMem : b ∈ r) : ∃ a ∈ l, R a b := by
  induction h with
  | nil => cases hMem
  | cons hHead _ ih =>
      rcases List.mem_cons.mp hMem with rfl | hMem
      · exact ⟨_, List.mem_cons_self, hHead⟩
      · obtain ⟨a, ha, hRel⟩ := ih hMem
        exact ⟨a, List.mem_cons_of_mem _ ha, hRel⟩

/-- An entry of the first of two lists that are related entry by entry has its partner. -/
theorem exists_right_of_mem {R : α → β → Prop} {l : List α} {r : List β} {a : α}
    (h : List.Forall₂ R l r) (hMem : a ∈ l) : ∃ b ∈ r, R a b :=
  exists_left_of_mem h.flip hMem

/-- A computation for every entry of a list succeeds exactly when each of them does, and the results
come in the order of the entries. -/
theorem mapM_eq_ok_iff {f : α → Except ε β} {l : List α} {r : List β} :
    l.mapM f = .ok r ↔ List.Forall₂ (fun a b => f a = .ok b) l r := by
  induction l generalizing r with
  | nil => cases r <;> simp
  | cons a l ih =>
      rw [List.mapM_cons, bind_eq_ok_iff]
      constructor
      · rintro ⟨b, hHead, hTail⟩
        obtain ⟨bs, hRest, hPure⟩ := bind_eq_ok_iff.mp hTail
        rw [pure_eq_ok_iff] at hPure
        subst hPure
        exact .cons hHead (ih.mp hRest)
      · intro h
        cases h with
        | cons hHead hRest =>
            exact ⟨_, hHead, bind_eq_ok_iff.mpr ⟨_, ih.mpr hRest, pure_eq_ok_iff.mpr rfl⟩⟩

/-- When the computations for the entries of a list fail, one of them does. -/
theorem exists_of_mapM_eq_error {f : α → Except ε β} {l : List α} {e : ε}
    (h : l.mapM f = .error e) : ∃ a ∈ l, f a = .error e := by
  induction l with
  | nil => simp [pure, Except.pure] at h
  | cons a l ih =>
      rw [List.mapM_cons] at h
      cases hHead : f a with
      | error e' =>
          simp only [hHead, bind, Except.bind, Except.error.injEq] at h
          exact ⟨a, List.mem_cons_self, h ▸ hHead⟩
      | ok b =>
          cases hRest : l.mapM f with
          | ok bs => simp [hHead, hRest, bind, Except.bind, pure, Except.pure] at h
          | error e' =>
              simp only [hHead, hRest, bind, Except.bind, Except.error.injEq] at h
              obtain ⟨x, hx, hFails⟩ := ih (h ▸ hRest)
              exact ⟨x, List.mem_cons_of_mem _ hx, hFails⟩

/-- Turning every result into something else can wait until all of them are there. -/
theorem mapM_map {γ : Type} (f : α → Except ε β) (g : β → γ) (l : List α) :
    l.mapM (fun a => (f a).map g) = (l.mapM f).map (List.map g) := by
  induction l with
  | nil => rfl
  | cons a l ih =>
      rw [List.mapM_cons, List.mapM_cons, ih]
      cases f a with
      | error e => rfl
      | ok b => cases l.mapM f <;> rfl

/-- What can be told of a result from the entry alone. -/
theorem map_of_mapM {γ : Type} {f : α → Except ε β} {g : β → γ} {k : α → γ} {l : List α}
    {r : List β} (h : l.mapM f = .ok r) (hEach : ∀ a ∈ l, ∀ b, f a = .ok b → g b = k a) :
    r.map g = l.map k := by
  induction l generalizing r with
  | nil =>
      rw [List.mapM_nil, pure_eq_ok_iff] at h
      rw [← h]
      rfl
  | cons a l ih =>
      rw [List.mapM_cons, bind_eq_ok_iff] at h
      obtain ⟨b, hFirst, h⟩ := h
      obtain ⟨bs, hRest, rfl⟩ := bind_pure_eq_ok_iff.mp h
      rw [List.map_cons, List.map_cons, hEach a List.mem_cons_self b hFirst,
        ih hRest fun x hx => hEach x (List.mem_cons_of_mem _ hx)]

/-- Every result of computations for the entries of a list comes from one of the entries. -/
theorem exists_of_mem_result {f : α → Except ε β} {l : List α} {r : List β} {b : β}
    (h : l.mapM f = .ok r) (hMem : b ∈ r) : ∃ a ∈ l, f a = .ok b := by
  obtain ⟨a, ha, hOk⟩ := exists_left_of_mem (mapM_eq_ok_iff.mp h) hMem
  exact ⟨a, ha, hOk⟩

/-- Every entry of a list has its result among those of all. -/
theorem exists_result_of_mem {f : α → Except ε β} {l : List α} {r : List β} {a : α}
    (h : l.mapM f = .ok r) (hMem : a ∈ l) : ∃ b ∈ r, f a = .ok b := by
  obtain ⟨b, hb, hOk⟩ := exists_right_of_mem (mapM_eq_ok_iff.mp h) hMem
  exact ⟨b, hb, hOk⟩

/-- The run of a loop: what every step on an entry of the list keeps holds at the end. -/
theorem foldlM_keeps {f : β → α → Except ε β} {l : List α} {start finish : β} (P : β → Prop)
    (hStep : ∀ a ∈ l, ∀ b b', P b → f b a = .ok b' → P b')
    (hStart : P start) (hRun : l.foldlM f start = .ok finish) : P finish := by
  induction l generalizing start with
  | nil =>
      rw [List.foldlM_nil, pure_eq_ok_iff] at hRun
      exact hRun ▸ hStart
  | cons a l ih =>
      rw [List.foldlM_cons, bind_eq_ok_iff] at hRun
      obtain ⟨middle, hFirst, hRest⟩ := hRun
      exact ih (fun x hx => hStep x (List.mem_cons_of_mem _ hx))
        (hStep a List.mem_cons_self start middle hStart hFirst) hRest

/-- What the step on one entry brings about, and what every step keeps, holds at the end of a loop
over a list with that entry. -/
theorem foldlM_establishes {f : β → α → Except ε β} {l : List α} {start finish : β} {a : α}
    (I P : β → Prop) (hMem : a ∈ l)
    (hInv : ∀ x ∈ l, ∀ b b', I b → f b x = .ok b' → I b')
    (hBring : ∀ b b', I b → f b a = .ok b' → P b')
    (hKeep : ∀ x ∈ l, ∀ b b', I b → P b → f b x = .ok b' → P b')
    (hStart : I start) (hRun : l.foldlM f start = .ok finish) : P finish := by
  obtain ⟨before, after, rfl⟩ := List.append_of_mem hMem
  rw [List.foldlM_append, bind_eq_ok_iff] at hRun
  obtain ⟨middle, hBefore, hRest⟩ := hRun
  rw [List.foldlM_cons, bind_eq_ok_iff] at hRest
  obtain ⟨next, hAt, hAfter⟩ := hRest
  have hMiddle : I middle :=
    foldlM_keeps I (fun x hx => hInv x (List.mem_append_left _ hx)) hStart hBefore
  have hNext : I next ∧ P next :=
    ⟨hInv a hMem middle next hMiddle hAt, hBring middle next hMiddle hAt⟩
  refine (foldlM_keeps (fun b => I b ∧ P b) (fun x hx b b' hb hf => ?_) hNext hAfter).2
  have hx' : x ∈ before ++ a :: after :=
    List.mem_append_right _ (List.mem_cons_of_mem _ hx)
  exact ⟨hInv x hx' b b' hb.1 hf, hKeep x hx' b b' hb.1 hb.2 hf⟩

end SolNorm.Outcome
