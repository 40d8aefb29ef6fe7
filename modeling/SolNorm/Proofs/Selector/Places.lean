import SolNorm.Analysis.Call
import SolNorm.Proofs.Outline.Spans
import SolNorm.Proofs.Selector.Overrides

/-!
Where new names are written. A table of new names has at most one for each key, and each of them is
for the place where a definition of the source is named. Names that are written in different places
of the source do not meet, and neither do names and calls.
-/

namespace SolNorm

open Outline

namespace FunctionKey

/-- The parts of a key, of which the first counts most. -/
def rank (k : FunctionKey) : String ×ₗ String ×ₗ List String :=
  toLex (k.contract, toLex (k.name, k.types))

theorem rank_injective : Function.Injective rank := by
  rintro ⟨contract, name, types⟩ ⟨contract', name', types'⟩ h
  simp only [rank, toLex_inj, Prod.mk.injEq] at h
  obtain ⟨rfl, rfl, rfl⟩ := h
  rfl

theorem listBefore_iff {as bs : List String} : listBefore as bs = true ↔ as < bs := by
  induction as generalizing bs with
  | nil => cases bs <;> simp [listBefore]
  | cons a as ih =>
      cases bs with
      | nil => simp [listBefore]
      | cons b bs => simp [listBefore, List.cons_lt_cons_iff, ih]

theorem before_iff {a b : FunctionKey} : a.before b = true ↔ a.rank < b.rank := by
  simp [before, rank, Prod.Lex.toLex_lt_toLex, listBefore_iff]

end FunctionKey

namespace Renames

/-- The keys of a table rise. -/
def Rising (r : Renames) : Prop := r.Pairwise fun a b => a.key.rank < b.key.rank

theorem mem_insert {new e : Rename} {r : Renames} (h : e ∈ insert new r) : e = new ∨ e ∈ r := by
  induction r with
  | nil => exact .inl (List.mem_singleton.mp h)
  | cons first rest ih =>
      unfold insert at h
      split at h
      · exact (List.mem_cons.mp h).imp id (List.mem_cons_of_mem _)
      · split at h
        · exact List.mem_cons.mp h
        · rcases List.mem_cons.mp h with rfl | h
          · exact .inr List.mem_cons_self
          · exact (ih h).imp id (List.mem_cons_of_mem _)

/-- The step: a new entry is put where its key belongs. -/
theorem Rising.insert {r : Renames} (h : r.Rising) (new : Rename) : Rising (insert new r) := by
  induction r with
  | nil => exact List.pairwise_singleton _ _
  | cons first rest ih =>
      obtain ⟨hFirst, hRest⟩ := List.pairwise_cons.mp h
      unfold Renames.insert
      split
      · rename_i hSame
        rw [eq_of_beq hSame] at hFirst
        exact List.pairwise_cons.mpr ⟨hFirst, hRest⟩
      · rename_i hOther
        split
        · rename_i hBefore
          rw [FunctionKey.before_iff] at hBefore
          refine List.pairwise_cons.mpr ⟨List.forall_mem_cons.mpr ⟨hBefore, ?_⟩, h⟩
          exact fun e he => hBefore.trans (hFirst e he)
        · rename_i hBehind
          rw [FunctionKey.before_iff, not_lt] at hBehind
          have hNe : first.key.rank ≠ new.key.rank := by
            intro hRank
            exact hOther (beq_iff_eq.mpr (FunctionKey.rank_injective hRank))
          refine List.pairwise_cons.mpr ⟨fun e he => ?_, ih hRest⟩
          rcases mem_insert he with rfl | he
          · exact lt_of_le_of_ne hBehind hNe
          · exact hFirst e he

end Renames

namespace Collision

variable {hash : String → Selector} {i : Index}

/-- A definition of the source is what an entry of a table is for. -/
def Names (d : Contract × Function) (e : Rename) : Prop :=
  FunctionRef.key ⟨d.1, d.2⟩ = e.key ∧ d.2.nameSpan = some e.span

/-- The entries of a table are for different definitions of the source. -/
structure Placed (i : Index) (r : Renames) : Prop where
  rising : r.Rising
  named : ∀ e ∈ r, ∃ d ∈ i.unit.definitions, Names d e

theorem mem_definitions {chain : List Contract} (hChain : chain ⊆ i.contracts) {f : Family}
    (hf : f ∈ familiesOf chain) {d : FunctionRef} (hd : d ∈ f.definitions) :
    (d.contract, d.function) ∈ i.unit.definitions ∧ d.function.kind = .function := by
  have hKnown := (familiesOf_spec chain).known f hf d hd
  obtain ⟨hContract, hFunction, hKind⟩ := mem_ordinaryFunctions_iff.mp hKnown
  exact ⟨Outline.mem_definitions_iff.mpr ⟨hChain hContract, hFunction⟩, hKind⟩

/-- The step: a family gets a new name where its definitions are named. -/
theorem Placed.renameFamily {chain : List Contract} (hChain : chain ⊆ i.contracts) {f : Family}
    (hf : f ∈ familiesOf chain) {r r' : Renames} {name : String} (h : Placed i r)
    (hRun : renameFamily r name f = .ok r') : Placed i r' := by
  apply Outcome.foldlM_keeps (Placed i) _ h hRun
  intro d hd t t' hPlaced hStep
  unfold rename at hStep
  split at hStep
  · rename_i span hSpan
    obtain rfl := Except.ok.inj hStep
    refine ⟨hPlaced.rising.insert _, fun e he => ?_⟩
    rcases Renames.mem_insert he with rfl | he
    · exact ⟨_, (mem_definitions hChain hf hd).1, rfl, hSpan⟩
    · exact hPlaced.named e he
  · cases hStep

/-- The run: every new name is for a definition, on the bytes that name it. -/
theorem placed_of_separateAll {m : Marking} (h : separateAll hash i = .ok m) :
    Placed i m.renames := by
  apply separateAll_keeps (Placed i) ⟨.nil, by simp⟩ _ h
  intro c _ chain hOrder f hCollides r r' name hPlaced hRun
  apply hPlaced.renameFamily _ hCollides.mem_familiesOf hRun
  intro a ha
  exact Index.mem_contracts_of_contract? (Index.contract?_of_mem_linearize hOrder ha)

theorem spansFit_of_mem_definitions (hSpans : i.unit.SpansFit i.text) {d : Contract × Function}
    (hd : d ∈ i.unit.definitions) : d.2.SpansFit i.text := by
  obtain ⟨hContract, hFunction⟩ := Outline.mem_definitions_iff.mp hd
  exact ((hSpans.contracts d.1 hContract).functions d.2 hFunction).1

/-- Different definitions are named in different places. -/
theorem disjoint_of_definitions (hSpans : i.unit.SpansFit i.text) {d e : Contract × Function}
    (hd : d ∈ i.unit.definitions) (he : e ∈ i.unit.definitions) (hNe : d ≠ e) {s t : Span}
    (hs : d.2.nameSpan = some s) (ht : e.2.nameSpan = some t) : s.Disjoint t := by
  have hNames := List.pairwise_filterMap.mp (List.pairwise_append.mp hSpans.names).2.1
  have : Std.Symm fun d e : Contract × Function =>
      ∀ s, d.2.nameSpan = some s → ∀ t, e.2.nameSpan = some t → s.Disjoint t :=
    ⟨fun _ _ h s hs t ht => (h t ht s hs).symm⟩
  exact hNames.forall hd he hNe s hs t ht

/-- Definitions are named on different bytes, so their new names are apart. -/
theorem Placed.disjoint {r : Renames} (h : Placed i r) (hSpans : i.unit.SpansFit i.text) :
    (r.map Rename.span).Pairwise Span.Disjoint := by
  apply List.pairwise_map.mpr
  apply h.rising.imp_of_mem
  intro a b ha hb hRank
  obtain ⟨d, hd, hKey, hSpan⟩ := h.named a ha
  obtain ⟨e, he, hKey', hSpan'⟩ := h.named b hb
  apply disjoint_of_definitions hSpans hd he _ hSpan hSpan'
  rintro rfl
  rw [← hKey, ← hKey'] at hRank
  exact lt_irrefl _ hRank

theorem Placed.fits {r : Renames} (h : Placed i r) (hSpans : i.unit.SpansFit i.text) {e : Rename}
    (he : e ∈ r) : e.span.FitsIn i.text := by
  obtain ⟨d, hd, _, hSpan⟩ := h.named e he
  exact (spansFit_of_mem_definitions hSpans hd).name e.span hSpan

theorem span_of_edit? {r : Renames} {c : Contract} {call : Call} {e : Edit}
    (h : CallSite.edit? i r c call = some e) : e.span = call.calleeSpan := by
  unfold CallSite.edit? at h
  split at h
  · obtain ⟨name, _, rfl⟩ := Option.map_eq_some_iff.mp h
    rfl
  · cases h

/-- Calls are edited where they are named, in the order of the walk. -/
theorem spans_of_callEdits (i : Index) (r : Renames) :
    ((CallSite.edits i r).map Edit.span).Sublist
      (i.unit.callSites.map fun site => site.2.calleeSpan) :=
  map_filterMap_sublist (fun _ _ h => span_of_edit? h) i.unit.callSites

/-- Definitions with new names and calls with new names stand in different places. -/
theorem Placed.disjoint_calls {r : Renames} (h : Placed i r) (hSpans : i.unit.SpansFit i.text) :
    ((r.map fun e => (⟨e.span, e.name⟩ : Edit)) ++ CallSite.edits i r).map Edit.span
        |>.Pairwise Span.Disjoint := by
  obtain ⟨hCalls, _, hCross⟩ := List.pairwise_append.mp hSpans.names
  rw [List.map_append, List.map_map]
  refine List.pairwise_append.mpr ⟨h.disjoint hSpans, hCalls.sublist (spans_of_callEdits i r), ?_⟩
  intro s hs t ht
  obtain ⟨e, he, rfl⟩ := List.mem_map.mp hs
  obtain ⟨d, hd, _, hSpan⟩ := h.named e he
  exact (hCross t ((spans_of_callEdits i r).subset ht) e.span
    (List.mem_filterMap.mpr ⟨d, hd, hSpan⟩)).symm

theorem fits_of_callEdits (hSpans : i.unit.SpansFit i.text) {r : Renames} {e : Edit}
    (he : e ∈ CallSite.edits i r) : e.span.FitsIn i.text := by
  have hSpan := (spans_of_callEdits i r).subset (List.mem_map_of_mem he)
  obtain ⟨site, hSite, hSame⟩ := List.mem_map.mp hSpan
  exact hSame ▸ hSpans.callees site hSite

end Collision

end SolNorm
