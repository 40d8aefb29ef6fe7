import SolNorm.Proofs.Linearization.Failure

/-!
The kinds of errors that computations can end with. An error is a slip if it tells of a fault of the
library and not of its input: edits that overlap or do not fit, or an index that is out of date.
-/

namespace SolNorm

/-- The library has tripped over its own edits or over its own index. -/
def Error.isSlip : Error → Bool
  | .overlap .. => true
  | .staleIndex _ => true
  | .invariant _ => true
  | .inPass _ cause => cause.isSlip
  | _ => false

/-- The pass in which an error comes up does not change whether it is a slip. -/
theorem Error.isSlip_within (pass : String) (e : Error) : (e.within pass).isSlip = e.isSlip := by
  cases e <;> rfl

namespace Outcome

variable {ε α β : Type} {E : ε → Prop}

/-- A computation can end with errors of one kind only. -/
def FailsIn (E : ε → Prop) (x : Except ε α) : Prop := ∀ e, x = .error e → E e

theorem failsIn_ok (a : α) : FailsIn E (.ok a) := by
  intro e h
  cases h

theorem failsIn_error {e : ε} (h : E e) : FailsIn E (.error e : Except ε α) := by
  intro e' he
  cases he
  exact h

/-- Both steps of a computation may fail, the second one for every result of the first. -/
theorem FailsIn.bind {x : Except ε α} {f : α → Except ε β} (hx : FailsIn E x)
    (hf : ∀ a, x = .ok a → FailsIn E (f a)) : FailsIn E (x >>= f) := by
  intro e h
  cases hResult : x with
  | error e' =>
      rw [hResult] at h
      have hSame : e' = e := Except.error.inj h
      exact hx e (hSame ▸ hResult)
  | ok a =>
      rw [hResult] at h
      exact hf a hResult e h

/-- The run over a list fails only as its steps do. -/
theorem FailsIn.mapM {f : α → Except ε β} {l : List α} (h : ∀ a ∈ l, FailsIn E (f a)) :
    FailsIn E (l.mapM f) := by
  intro e he
  obtain ⟨a, ha, hFails⟩ := exists_of_mapM_eq_error he
  exact h a ha e hFails

/-- A computation ends with an error of one kind or with a result of one kind. -/
structure Meets (E : ε → Prop) (Q : α → Prop) (x : Except ε α) : Prop where
  fails : FailsIn E x
  gives : ∀ a, x = .ok a → Q a

theorem meets_of_eq_ok {Q : α → Prop} {x : Except ε α} {a : α} (hx : x = .ok a) (ha : Q a) :
    Meets E Q x := by
  rw [hx]
  refine ⟨failsIn_ok a, fun b hb => ?_⟩
  cases hb
  exact ha

theorem Meets.imp {E' : ε → Prop} {Q Q' : α → Prop} {x : Except ε α} (h : Meets E Q x)
    (hE : ∀ e, E e → E' e) (hQ : ∀ a, Q a → Q' a) : Meets E' Q' x :=
  ⟨fun e he => hE e (h.fails e he), fun a ha => hQ a (h.gives a ha)⟩

/-- The second step only has to deal with what the first one can give. -/
theorem Meets.bind {Q : α → Prop} {R : β → Prop} {x : Except ε α} {f : α → Except ε β}
    (hx : Meets E Q x) (hf : ∀ a, Q a → Meets E R (f a)) : Meets E R (x >>= f) := by
  refine ⟨hx.fails.bind fun a ha => (hf a (hx.gives a ha)).fails, fun b hb => ?_⟩
  obtain ⟨a, ha, hb⟩ := bind_eq_ok_iff.mp hb
  exact (hf a (hx.gives a ha)).gives b hb

/-- The run of a loop: every step leads from what holds before its entry to what holds before the
rest. -/
theorem Meets.foldlM {f : β → α → Except ε β} {l : List α} {start : β} (P : List α → β → Prop)
    (hStep : ∀ a rest b, P (a :: rest) b → Meets E (P rest) (f b a)) (hStart : P l start) :
    Meets E (P []) (l.foldlM f start) := by
  induction l generalizing start with
  | nil =>
      refine ⟨failsIn_ok start, fun b hb => ?_⟩
      rw [List.foldlM_nil, pure_eq_ok_iff] at hb
      exact hb ▸ hStart
  | cons a rest ih =>
      rw [List.foldlM_cons]
      exact (hStep a rest start hStart).bind fun next hNext => ih hNext

end Outcome

namespace Index

open Outcome

/-- That contracts cannot be put in order is never a slip. -/
theorem failsIn_linearize (i : Index) (name : String) :
    FailsIn (fun e => e.isSlip = false) (i.linearize name) := by
  intro e h
  obtain ⟨contract, message, rfl⟩ :=
    inheritance_of_ancestors_eq_error (order_eq_error_iff.mpr h)
  rfl

theorem failsIn_contract (i : Index) (name : String) :
    FailsIn (fun e => e.isSlip = false) (i.contract name) := by
  unfold contract
  split
  · exact failsIn_ok _
  · exact failsIn_error rfl

end Index

end SolNorm
