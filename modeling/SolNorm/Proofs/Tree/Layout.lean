import SolNorm.Tree.Walk
import SolNorm.Proofs.Outline.Spans

/-!
How the nodes of a syntax tree lie in a text. A tree is laid out if the bytes of every node can be cut
out of the text, children lie inside their parents, and siblings follow each other. In such a tree
everything that is below a node lies inside it.
-/

namespace SolNorm

namespace Span

/-- A span lies between two offsets. -/
def Between (s : Span) (lo hi : Nat) : Prop := lo ≤ s.start ∧ s.stop ≤ hi

instance (s : Span) (lo hi : Nat) : Decidable (s.Between lo hi) :=
  inferInstanceAs (Decidable (_ ∧ _))

theorem Between.widen {s : Span} {lo hi lo' hi' : Nat} (h : s.Between lo hi) (hLo : lo' ≤ lo)
    (hHi : hi ≤ hi') : s.Between lo' hi' :=
  ⟨hLo.trans h.1, h.2.trans hHi⟩

/-- The test for enclosing decides whether a span lies between the ends of another one. -/
theorem encloses_iff {s t : Span} : s.encloses t = true ↔ t.Between s.start s.stop := by
  simp [encloses, Between]

theorem Disjoint.symm {s t : Span} (h : s.Disjoint t) : t.Disjoint s := Or.symm h

/-- Spans on both sides of an offset. -/
theorem before_of_between {s t : Span} {lo mid hi : Nat} (hs : s.Between lo mid)
    (hLt : s.start < s.stop) (ht : t.Between mid hi) : s.Before t :=
  ⟨hLt.trans_le (hs.2.trans ht.1), hs.2.trans ht.1⟩

/-- What lies inside spans that follow each other does so too. -/
theorem Before.of_between {s t a b : Span} (h : s.Before t) (ha : a.Between s.start s.stop)
    (hLt : a.start < a.stop) (hb : b.Between t.start t.stop) : a.Before b := by
  unfold Before Between at *
  omega

/-- What lies inside spans that have no byte in common has none in common either. -/
theorem Disjoint.of_between {s t a b : Span} (h : s.Disjoint t) (ha : a.Between s.start s.stop)
    (hLt : a.start < a.stop) (hb : b.Between t.start t.stop) (hLt' : b.start < b.stop) :
    a.Disjoint b := by
  unfold Disjoint Before Between at *
  omega

/-- A span spells a word if the characters between its ends are those of the word. -/
theorem slice?_eq_some_iff {s : Span} {text word : String} :
    s.slice? text = some word ↔ Text.slice? text.toList s.start s.stop = some word.toList := by
  rw [slice?, Option.map_eq_some_iff]
  constructor
  · rintro ⟨middle, hMiddle, rfl⟩
    rw [hMiddle, String.toList_ofList]
  · intro h
    exact ⟨_, h, String.ofList_toList⟩

theorem fitsIn_of_slice? {s : Span} {text word : String} (h : s.slice? text = some word) :
    s.FitsIn text := by
  obtain ⟨before, after, hText, hStart, hStop⟩ :=
    Text.slice?_eq_some_iff.mp (slice?_eq_some_iff.mp h)
  refine ⟨?_, ?_, ?_⟩
  · rw [hStart, hStop, Text.byteSize_append]
    omega
  · exact Text.isBoundary_iff.mpr ⟨before, word.toList ++ after, by simp [hText], hStart.symm⟩
  · exact Text.isBoundary_iff.mpr ⟨before ++ word.toList, after, hText, hStop.symm⟩

/-- What fits into a text can be cut out of it. -/
theorem slice?_of_fitsIn {s : Span} {text : String} (h : s.FitsIn text) :
    s.slice? text = some (s.slice text) := by
  obtain ⟨hLe, hStart, hStop⟩ := h
  obtain ⟨before, after, hText, hBefore⟩ := Text.isBoundary_iff.mp hStart
  rw [hText] at hStop
  obtain ⟨middle, rest, rfl, hMiddle⟩ := Text.exists_middle (hBefore.trans_le hLe) hStop
  have hSlice : Text.slice? text.toList s.start s.stop = some middle :=
    Text.slice?_eq_some_iff.mpr ⟨before, rest, by simp [hText], hBefore.symm, hMiddle.symm⟩
  rw [slice, slice?, hSlice]
  rfl

/-- A span is as long as what it spells. -/
theorem stop_of_slice? {s : Span} {text word : String} (h : s.slice? text = some word) :
    s.stop = s.start + Text.byteSize word.toList := by
  obtain ⟨before, after, _, hStart, hStop⟩ :=
    Text.slice?_eq_some_iff.mp (slice?_eq_some_iff.mp h)
  rw [hStart, hStop, Text.byteSize_append]

/-- An opening brace and a later closing brace make a braced span. -/
theorem braced_of_slices {text : String} {opening closing : Span}
    (hOpen : opening.slice? text = some "\x7b") (hClose : closing.slice? text = some "\x7d")
    (hLe : opening.stop ≤ closing.start) : (⟨opening.start, closing.stop⟩ : Span).Braced text := by
  obtain ⟨before, rest, hBefore, hStart, hOpened⟩ :=
    Text.slice?_eq_some_iff.mp (slice?_eq_some_iff.mp hOpen)
  obtain ⟨upTo, after, hUpTo, hClosing, hStop⟩ :=
    Text.slice?_eq_some_iff.mp (slice?_eq_some_iff.mp hClose)
  have hSame : before ++ ['{'] ++ rest = upTo ++ (['}'] ++ after) := by
    rw [← List.append_assoc upTo]
    exact hBefore.symm.trans hUpTo
  have hMiddle : ∃ middle, upTo = before ++ ['{'] ++ middle := by
    rcases List.append_eq_append_iff.mp hSame with ⟨middle, hMiddle, _⟩ | ⟨extra, hExtra, _⟩
    · exact ⟨middle, hMiddle⟩
    · -- The closing brace starts no earlier than the opening one ends.
      have hShort : Text.byteSize (before ++ ['{']) ≤ Text.byteSize upTo := by
        rw [hOpened, hClosing] at hLe
        exact hLe
      have hNil : extra = [] := by
        apply Text.eq_nil_of_byteSize
        rw [hExtra, Text.byteSize_append] at hShort
        omega
      exact ⟨[], by rw [hExtra, hNil, List.append_nil, List.append_nil]⟩
  obtain ⟨middle, rfl⟩ := hMiddle
  have hInner : before ++ ['{'] ++ middle = before ++ '{' :: middle := by simp
  rw [hInner] at hUpTo hStop
  refine ⟨before, middle, after, ?_, hStart, ?_⟩
  · rw [hUpTo, List.append_assoc]
    rfl
  · rw [hStop, Text.byteSize_append]
    rfl

end Span

/-- Entries of some sort whose spans lie between two offsets, from left to right. -/
@[mk_iff] structure Ascending {β : Type} (span : β → Span) (P : β → Prop) (lo hi : Nat)
    (entries : List β) : Prop where
  each : ∀ b ∈ entries, P b ∧ (span b).start < (span b).stop ∧ (span b).Between lo hi
  before : (entries.map span).Pairwise Span.Before

instance {β : Type} (span : β → Span) (P : β → Prop) [DecidablePred P] (lo hi : Nat)
    (entries : List β) : Decidable (Ascending span P lo hi entries) :=
  decidable_of_iff _ (ascending_iff span P lo hi entries).symm

namespace Ascending

variable {α β : Type} {place : α → Span} {span : β → Span} {Q : α → Prop} {P : β → Prop}
  {lo mid hi : Nat} {list : List α} {entries others : List β}

theorem nil : Ascending span P lo hi [] := ⟨by simp, .nil⟩

theorem singleton {b : β} (hb : P b) (hLt : (span b).start < (span b).stop)
    (hIn : (span b).Between lo hi) : Ascending span P lo hi [b] :=
  ⟨by simp [hb, hLt, hIn], List.pairwise_singleton _ _⟩

/-- What follows the first entry lies behind it. -/
theorem tail {b : β} (h : Ascending span P lo hi (b :: entries)) :
    Ascending span P (span b).stop hi entries := by
  have hBefore := h.before
  rw [List.map_cons, List.pairwise_cons] at hBefore
  refine ⟨fun c hc => ?_, hBefore.2⟩
  obtain ⟨hc', hLt, hIn⟩ := h.each c (List.mem_cons_of_mem _ hc)
  exact ⟨hc', hLt, (hBefore.1 _ (List.mem_map_of_mem hc)).2, hIn.2⟩

theorem widen {lo' hi' : Nat} (h : Ascending span P lo hi entries) (hLo : lo' ≤ lo)
    (hHi : hi ≤ hi') : Ascending span P lo' hi' entries := by
  refine ⟨fun b hb => ?_, h.before⟩
  obtain ⟨hPlaced, hLt, hIn⟩ := h.each b hb
  exact ⟨hPlaced, hLt, hIn.widen hLo hHi⟩

/-- Entries of which each lies between two other offsets. -/
theorem narrow {lo' hi' : Nat} (h : Ascending span P lo hi entries)
    (hIn : ∀ b ∈ entries, (span b).Between lo' hi') : Ascending span P lo' hi' entries :=
  ⟨fun b hb => ⟨(h.each b hb).1, (h.each b hb).2.1, hIn b hb⟩, h.before⟩

theorem sublist (h : Ascending span P lo hi entries) (hSub : others.Sublist entries) :
    Ascending span P lo hi others :=
  ⟨fun b hb => h.each b (hSub.subset hb), h.before.sublist (hSub.map span)⟩

theorem imp {P' : β → Prop} (h : Ascending span P lo hi entries) (hImp : ∀ b, P b → P' b) :
    Ascending span P' lo hi entries :=
  ⟨fun b hb => ⟨hImp b (h.each b hb).1, (h.each b hb).2⟩, h.before⟩

theorem filter (h : Ascending span P lo hi entries) (p : β → Bool) :
    Ascending span (fun b => P b ∧ p b = true) lo hi (entries.filter p) := by
  have hKept := h.sublist (List.filter_sublist (p := p))
  refine ⟨fun b hb => ?_, hKept.before⟩
  obtain ⟨hb', hIn⟩ := hKept.each b hb
  exact ⟨⟨hb', (List.mem_filter.mp hb).2⟩, hIn⟩

/-- The step: entries on both sides of an offset. -/
theorem append (h : Ascending span P lo mid entries) (hOthers : Ascending span P mid hi others)
    (hLo : lo ≤ mid) (hHi : mid ≤ hi) : Ascending span P lo hi (entries ++ others) where
  each b hb := by
    rcases List.mem_append.mp hb with hb | hb
    · exact (h.widen le_rfl hHi).each b hb
    · exact (hOthers.widen hLo le_rfl).each b hb
  before := by
    rw [List.map_append, List.pairwise_append]
    refine ⟨h.before, hOthers.before, ?_⟩
    simp only [List.forall_mem_map]
    intro b hb c hc
    obtain ⟨_, hLt, hIn⟩ := h.each b hb
    exact Span.before_of_between hIn hLt (hOthers.each c hc).2.2

/-- What lies inside entries that follow each other does so too. -/
theorem flatMap {inner : α → List β} (h : Ascending place Q lo hi list)
    (hEach : ∀ a ∈ list, Ascending span P (place a).start (place a).stop (inner a)) :
    Ascending span P lo hi (list.flatMap inner) where
  each b hb := by
    obtain ⟨a, ha, hb⟩ := List.mem_flatMap.mp hb
    have hIn := (h.each a ha).2.2
    exact ((hEach a ha).widen hIn.1 hIn.2).each b hb
  before := by
    rw [List.pairwise_map, List.pairwise_flatMap]
    refine ⟨fun a ha => List.pairwise_map.mp (hEach a ha).before, ?_⟩
    refine (List.pairwise_map.mp h.before).imp_of_mem fun {a a'} ha ha' hBefore b hb b' hb' => ?_
    obtain ⟨_, hLt, hIn⟩ := (hEach a ha).each b hb
    exact hBefore.of_between hIn hLt ((hEach a' ha').each b' hb').2.2

/-- What is picked from entries that follow each other. -/
theorem filterMap {pick : α → Option β} (h : Ascending place Q lo hi list)
    (hEach : ∀ a ∈ list, ∀ b, pick a = some b →
      P b ∧ (span b).start < (span b).stop ∧ (span b).Between (place a).start (place a).stop) :
    Ascending span P lo hi (list.filterMap pick) := by
  rw [List.filterMap_eq_flatMap_toList]
  refine h.flatMap fun a ha => ?_
  cases hPick : pick a with
  | none => exact nil
  | some b =>
      obtain ⟨hb, hLt, hIn⟩ := hEach a ha b hPick
      exact singleton hb hLt hIn

/-- What is made of entries that follow each other. -/
theorem map {make : α → β} (h : Ascending place Q lo hi list)
    (hEach : ∀ a ∈ list, P (make a) ∧ (span (make a)).start < (span (make a)).stop ∧
      (span (make a)).Between (place a).start (place a).stop) :
    Ascending span P lo hi (list.map make) := by
  rw [← List.filterMap_eq_map]
  refine h.filterMap fun a ha b hb => ?_
  obtain rfl := Option.some.inj hb
  exact hEach a ha

end Ascending

namespace Tree.Node

/-- What holds of a node if it holds of its children holds of every node. -/
theorem induction {P : Node → Prop} (h : ∀ n, (∀ c ∈ n.children, P c) → P n) (n : Node) : P n :=
  h n fun c _ => induction h c
termination_by n.size
decreasing_by exact size_lt_of_mem ‹_›

mutual

/-- A node and everything below it, parents first. -/
def nodes : Node → List Node
  | ⟨kind, field, isNamed, isMissing, span, children⟩ =>
    ⟨kind, field, isNamed, isMissing, span, children⟩ :: nodesOf children

def nodesOf : List Node → List Node
  | [] => []
  | n :: rest => n.nodes ++ nodesOf rest

end

/-- The nodes of a tree are its root and the nodes of its children, in this order. -/
theorem nodes_eq (n : Node) : n.nodes = n :: n.children.flatMap nodes := by
  have hAll (list : List Node) : nodesOf list = list.flatMap nodes := by
    induction list with
    | nil => rfl
    | cons c rest ih => rw [nodesOf, ih, List.flatMap_cons]
  obtain ⟨kind, field, isNamed, isMissing, span, children⟩ := n
  rw [nodes, hAll]

theorem self_mem_nodes (n : Node) : n ∈ n.nodes := by
  rw [nodes_eq]
  exact List.mem_cons_self

/-- What is below a node is the node itself or below one of its children. -/
theorem mem_nodes_iff {n m : Node} : m ∈ n.nodes ↔ m = n ∨ ∃ c ∈ n.children, m ∈ c.nodes := by
  rw [nodes_eq, List.mem_cons, List.mem_flatMap]

theorem mem_nodes_of_mem_children {n c : Node} (h : c ∈ n.children) : c ∈ n.nodes :=
  mem_nodes_iff.mpr (.inr ⟨c, h, self_mem_nodes c⟩)

/-- What is below something below a node is below the node. -/
theorem mem_nodes_trans {k m n : Node} (hk : k ∈ m.nodes) (hm : m ∈ n.nodes) : k ∈ n.nodes := by
  induction n using induction with
  | h n ih =>
    rcases mem_nodes_iff.mp hm with rfl | ⟨c, hc, hm⟩
    · exact hk
    · exact mem_nodes_iff.mpr (.inr ⟨c, hc, ih c hc hm⟩)

theorem unwrap_mem_nodes (n : Node) : n.unwrap ∈ n.nodes := by
  fun_induction unwrap n with
  | case1 n _ inner hNamed _ ih =>
      have hInner : inner ∈ n.namedChildren := by simp [hNamed]
      exact mem_nodes_trans ih (mem_nodes_of_mem_children (mem_children_of_mem_namedChildren hInner))
  | case2 n => exact self_mem_nodes n
  | case3 n => exact self_mem_nodes n

/-- The first error is the first one from parents to children and from left to right. -/
theorem firstError?_eq (n : Node) :
    n.firstError? = n.nodes.find? fun m => m.isError || m.isMissing := by
  induction n using induction with
  | h n ih =>
    rw [firstError?, nodes_eq, List.find?_cons]
    cases n.isError || n.isMissing with
    | true => rfl
    | false =>
        rw [if_neg Bool.false_ne_true, List.find?_flatMap]
        simp only [List.findSome?_subtype, List.unattach_attach]
        generalize n.children = list at ih ⊢
        induction list with
        | nil => rfl
        | cons c rest ihRest =>
            obtain ⟨hc, hRest⟩ := List.forall_mem_cons.mp ih
            rw [List.findSome?_cons, List.findSome?_cons, hc, ihRest hRest]

/-- A tree has neither errors nor gaps. -/
def IsComplete (n : Node) : Prop := ∀ m ∈ n.nodes, (m.isError || m.isMissing) = false

/-- No error is reported if and only if the tree has neither errors nor gaps. -/
theorem firstError?_eq_none_iff {n : Node} : n.firstError? = none ↔ n.IsComplete := by
  simp [firstError?_eq, IsComplete]

/-- The bytes of a node can be cut out of a text, and its children follow each other inside them. -/
@[mk_iff] structure LaidOut (text : String) (n : Node) : Prop where
  fits : n.span.FitsIn text
  inside : ∀ c ∈ n.children, c.span.Between n.span.start n.span.stop
  before : (n.children.map span).Pairwise Span.Before

instance (text : String) (n : Node) : Decidable (n.LaidOut text) :=
  decidable_of_iff _ (laidOut_iff text n).symm

end Tree.Node

end SolNorm
