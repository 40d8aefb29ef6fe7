import SolNorm.Proofs.Tree.Layout

/-!
Outlines in which everything is where it says it is. Beyond what the passes rely on, a name is spelled
by the text on its bytes, what belongs to an entry lies inside it, and what stands side by side
follows each other.
-/

namespace SolNorm

theorem Span.Braced.fitsIn {s : Span} {text : String} (h : s.Braced text) : s.FitsIn text := by
  refine ⟨Nat.le_of_lt (Nat.lt_of_succ_lt h.start_succ_lt), h.isBoundary_start, ?_⟩
  obtain ⟨before, inner, after, hText, _, hStop⟩ := h
  refine Text.isBoundary_iff.mpr ⟨before ++ '{' :: inner ++ ['}'], after, by simp [hText], ?_⟩
  rw [hStop, Text.byteSize_append]
  rfl

namespace Outline

/-- A name is spelled by the bytes of a span. -/
def Spelled (text name : String) (s : Span) : Prop :=
  s.start < s.stop ∧ s.slice? text = some name

/-- The names that an argument mentions are inside it, from left to right. -/
@[mk_iff] structure Expr.Placed (text : String) (e : Expr) : Prop where
  fits : e.span.FitsIn text
  idents : Ascending Ident.span (fun i => i.span.slice? text = some i.name) e.span.start e.span.stop
    e.idents

instance (text : String) (e : Expr) : Decidable (e.Placed text) :=
  decidable_of_iff _ (Expr.placed_iff text e).symm

/-- A call starts with the name of what is called, and its arguments follow from left to right. -/
structure Call.Placed (text : String) (c : Call) : Prop where
  fits : c.span.FitsIn text
  callee : Spelled text c.callee c.calleeSpan ∧ c.span.encloses c.calleeSpan = true
  arguments : Ascending Expr.span (Expr.Placed text) c.calleeSpan.stop c.span.stop c.arguments

/-- Calls inside a span, in the order of the names that are called. -/
structure CallsPlaced (text : String) (s : Span) (calls : List Call) : Prop where
  placed : ∀ c ∈ calls, c.Placed text ∧ s.encloses c.span = true
  ascending : (calls.map Call.calleeSpan).Pairwise Span.Before

/-- A variable has its type before its name, if it has one. -/
structure Variable.Placed (text : String) (v : Variable) : Prop where
  fits : v.span.FitsIn text
  type : v.type.span.FitsIn text ∧ v.span.encloses v.type.span = true
  named : Option.Rel (fun name s => Spelled text name s ∧ v.span.encloses s = true ∧
    v.type.span.Before s) v.name v.nameSpan
  calls : CallsPlaced text v.span v.calls

/-- What is found in a body is inside it. -/
structure Body.Placed (text : String) (b : Body) : Prop where
  braced : b.span.Braced text
  locals : ∀ v ∈ b.locals, v.Placed text ∧ b.span.encloses v.span = true
  calls : CallsPlaced text b.span b.calls
  idents : Ascending Ident.span (fun i => i.span.slice? text = some i.name) b.span.start b.span.stop
    b.idents

/-- The arguments of a base or a modifier are inside their parentheses. -/
structure Invocation.Placed (text : String) (v : Invocation) : Prop extends v.SpansFit text where
  arguments : Option.Rel (fun list s => Ascending Expr.span (Expr.Placed text) s.start s.stop list)
    v.arguments v.argsSpan
  calls : CallsPlaced text v.span v.calls

/-- A function has its name before its parameters, its modifiers behind them, and its body at the
end. Only a function without a name may declare parameters outside its parameter list. -/
structure Function.Placed (text : String) (f : Function) : Prop extends f.SpansFit text where
  named : ∀ s ∈ f.nameSpan, Spelled text f.name s ∧ s.Between f.span.start f.paramsSpan.start
  params : f.paramsSpan.FitsIn text ∧ f.span.encloses f.paramsSpan = true
  declared : Ascending Variable.span (Variable.Placed text) f.paramsSpan.start f.span.stop
    (f.parameters ++ f.returns)
  listed : f.kind = .function ∨ f.kind = .constructor ∨ f.kind = .modifier →
    ∀ v ∈ f.parameters, f.paramsSpan.encloses v.span = true
  attributes : Ascending Attribute.span (fun a => a.span.slice? text = some a.text)
    f.paramsSpan.stop f.span.stop f.attributes
  invoked : Ascending Invocation.span (Invocation.Placed text) f.paramsSpan.stop f.span.stop
    f.modifiers
  inside : ∀ b ∈ f.body, b.Placed text ∧ f.paramsSpan.stop ≤ b.span.start ∧
    (∀ v ∈ f.parameters ++ f.returns, v.span.Before b.span) ∧
    ∀ a ∈ f.attributes, a.span.Before b.span

/-- The bases of a contract stand between its name and its body, and its members inside the body,
where variables and functions follow each other. -/
structure Contract.Placed (text : String) (c : Contract) : Prop extends c.SpansFit text where
  named : Spelled text c.name c.nameSpan ∧ c.nameSpan.Between c.span.start c.bodySpan.start
  derived : Ascending Invocation.span (Invocation.Placed text) c.nameSpan.stop c.bodySpan.start
    c.bases
  stored : Ascending Variable.span (Variable.Placed text) (c.bodySpan.start + 1)
    (c.bodySpan.stop - 1) c.stateVariables
  routines : Ascending Function.span (Function.Placed text) (c.bodySpan.start + 1)
    (c.bodySpan.stop - 1) c.functions
  apart : ∀ v ∈ c.stateVariables, ∀ f ∈ c.functions, v.span.Disjoint f.span

/-- The bytes of an entry of a file. -/
def Item.span : Item → Span
  | .pragma s | .other _ _ s => s
  | .imports i => i.span
  | .contract c => c.span

/-- The entries of a file follow each other, and what belongs to them is placed. -/
structure Placed (text : String) (u : Outline) : Prop extends u.SpansFit text where
  whole : u.span = ⟨0, Text.byteSize text.toList⟩
  entries : Ascending Item.span (fun i => i.span.FitsIn text) u.span.start u.span.stop u.items
  paths : ∀ i ∈ u.imports, i.pathSpan.FitsIn text ∧ i.span.encloses i.pathSpan = true
  derivations : ∀ c ∈ u.contracts, c.Placed text

namespace Finds

/-- What was found lies between two offsets. The names of calls have no byte in common, and mentioned
names come from left to right. -/
structure Within (text : String) (lo hi : Nat) (f : Finds) : Prop where
  locals : ∀ v ∈ f.locals, v.Placed text ∧ v.span.Between lo hi
  calls : ∀ c ∈ f.calls, c.Placed text ∧ c.span.Between lo hi
  apart : (f.calls.map Call.calleeSpan).Pairwise Span.Disjoint
  idents : Ascending Ident.span (fun i => i.span.slice? text = some i.name) lo hi f.idents

variable {text : String} {lo mid hi : Nat} {f g : Finds}

theorem within_none : none.Within text lo hi where
  locals := by simp [none]
  calls := by simp [none]
  apart := .nil
  idents := .nil

theorem Within.widen {lo' hi' : Nat} (h : f.Within text lo hi) (hLo : lo' ≤ lo) (hHi : hi ≤ hi') :
    f.Within text lo' hi' where
  locals v hv := ⟨(h.locals v hv).1, (h.locals v hv).2.widen hLo hHi⟩
  calls c hc := ⟨(h.calls c hc).1, (h.calls c hc).2.widen hLo hHi⟩
  apart := h.apart
  idents := h.idents.widen hLo hHi

/-- The name of a call that was found is in the region. -/
theorem Within.callee (h : f.Within text lo hi) {c : Call} (hc : c ∈ f.calls) :
    c.calleeSpan.start < c.calleeSpan.stop ∧ c.calleeSpan.Between lo hi := by
  obtain ⟨hPlaced, hIn⟩ := h.calls c hc
  have hCallee := Span.encloses_iff.mp hPlaced.callee.2
  exact ⟨hPlaced.callee.1.1, hCallee.widen hIn.1 hIn.2⟩

/-- The step: one region after another. -/
theorem Within.append (hf : f.Within text lo mid) (hg : g.Within text mid hi) (hLo : lo ≤ mid)
    (hHi : mid ≤ hi) : (f ++ g).Within text lo hi where
  locals v hv := by
    rcases List.mem_append.mp hv with hv | hv
    · exact (hf.widen le_rfl hHi).locals v hv
    · exact (hg.widen hLo le_rfl).locals v hv
  calls c hc := by
    rcases List.mem_append.mp hc with hc | hc
    · exact (hf.widen le_rfl hHi).calls c hc
    · exact (hg.widen hLo le_rfl).calls c hc
  apart := by
    show ((f.calls ++ g.calls).map Call.calleeSpan).Pairwise _
    rw [List.map_append, List.pairwise_append]
    refine ⟨hf.apart, hg.apart, ?_⟩
    simp only [List.forall_mem_map]
    intro c hc d hd
    obtain ⟨hLt, hIn⟩ := hf.callee hc
    exact .inl (Span.before_of_between hIn hLt (hg.callee hd).2)
  idents := hf.idents.append hg.idents hLo hHi

/-- One more call, whose name is apart from the names of the others. -/
theorem Within.call {c : Call} (h : f.Within text lo hi) (hPlaced : c.Placed text)
    (hIn : c.span.Between lo hi) (hApart : ∀ d ∈ f.calls, d.calleeSpan.Disjoint c.calleeSpan) :
    ((⟨[], [c], []⟩ : Finds) ++ f).Within text lo hi where
  locals := h.locals
  calls := List.forall_mem_cons.mpr ⟨⟨hPlaced, hIn⟩, h.calls⟩
  apart := by
    show (c.calleeSpan :: f.calls.map Call.calleeSpan).Pairwise _
    rw [List.pairwise_cons, List.forall_mem_map]
    exact ⟨fun d hd => (hApart d hd).symm, h.apart⟩
  idents := h.idents

theorem Within.variable {v : Variable} (h : f.Within text lo hi) (hPlaced : v.Placed text)
    (hIn : v.span.Between lo hi) : ((⟨[v], [], []⟩ : Finds) ++ f).Within text lo hi :=
  { h with locals := List.forall_mem_cons.mpr ⟨⟨hPlaced, hIn⟩, h.locals⟩ }

theorem append_none (f : Finds) : f ++ none = f := by
  show append f none = f
  simp [append, none]

/-- A call is found in a list of regions if it is found in one of them. -/
theorem mem_calls_join {α : Type} {finds : α → Finds} {list : List α} {c : Call} :
    c ∈ (join (list.map finds)).calls ↔ ∃ a ∈ list, c ∈ (finds a).calls := by
  induction list with
  | nil => simp [join, none]
  | cons a rest ih =>
      show c ∈ (finds a).calls ++ (join (rest.map finds)).calls ↔ _
      rw [List.mem_append, ih]
      simp

/-- The finds of entries that follow each other. -/
theorem within_join {α : Type} {finds : α → Finds} {place : α → Span} {Q : α → Prop} {list : List α}
    (h : Ascending place Q lo hi list)
    (hEach : ∀ a ∈ list, (finds a).Within text (place a).start (place a).stop) :
    (join (list.map finds)).Within text lo hi := by
  induction list generalizing lo with
  | nil => exact within_none
  | cons a rest ih =>
      obtain ⟨_, hLt, hIn⟩ := h.each a List.mem_cons_self
      obtain ⟨hFirst, hRest⟩ := List.forall_mem_cons.mp hEach
      exact (hFirst.widen hIn.1 le_rfl).append (ih h.tail hRest) (hIn.1.trans hLt.le) hIn.2

end Finds

variable {text : String}

theorem callsPlaced_nil {s : Span} : CallsPlaced text s [] := ⟨by simp, .nil⟩

/-- Calls that were found in a region, in the order of their names. -/
theorem callsPlaced_sortedCalls {f : Finds} {s : Span} (h : f.Within text s.start s.stop) :
    CallsPlaced text s f.sortedCalls := by
  have hPerm : f.sortedCalls.Perm f.calls := List.mergeSort_perm _ _
  refine ⟨fun c hc => ?_, ?_⟩
  · obtain ⟨hPlaced, hIn⟩ := h.calls c (hPerm.mem_iff.mp hc)
    exact ⟨hPlaced, Span.encloses_iff.mpr hIn⟩
  · have hSorted : f.sortedCalls.Pairwise fun a b => a.calleeSpan.start ≤ b.calleeSpan.start := by
      have hSort : f.sortedCalls.Pairwise fun a b =>
          decide (a.calleeSpan.start ≤ b.calleeSpan.start) = true :=
        List.pairwise_mergeSort (by simp; omega) (by simp; omega) f.calls
      exact hSort.imp of_decide_eq_true
    have hApart : f.sortedCalls.Pairwise fun a b => a.calleeSpan.Disjoint b.calleeSpan :=
      (hPerm.pairwise_iff fun hab => hab.symm).mpr (List.pairwise_map.mp h.apart)
    rw [List.pairwise_map]
    refine (hSorted.and hApart).imp fun ⟨hLe, hApart⟩ => ?_
    rcases hApart with hBefore | hBehind
    · exact hBefore
    · exact absurd hBehind.1 (by omega)

end Outline

end SolNorm
