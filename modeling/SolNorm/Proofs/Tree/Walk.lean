import SolNorm.Proofs.Tree.Grammar

/-!
The walk through a tree comes to no byte twice: the nodes to which it goes on from a node lie inside
that node and follow each other. The same holds of the arguments of a call.
-/

namespace SolNorm.Tree.Node

variable {text : String} {n a m : Node}

/-- The children of a node follow each other inside it. -/
theorem WellFormed.ascending (h : n.WellFormed text) :
    Ascending span (WellFormed text) n.span.start n.span.stop n.children where
  each c hc := ⟨h.child hc, (h.child hc).follows.nonempty, h.laidOut.inside c hc⟩
  before := h.laidOut.before

theorem mem_of_childByField? {name : String} (hField : n.childByField? name = some m) :
    m ∈ n.children ∧ m.field = some name :=
  ⟨List.mem_of_find?_eq_some hField, by simpa using List.find?_some hField⟩

/-- A child with a field is found by it, or one before it is. -/
theorem exists_childByField? {name : String} (hm : m ∈ n.children) (hField : m.field = some name) :
    ∃ c, n.childByField? name = some c :=
  Option.isSome_iff_exists.mp (List.find?_isSome.mpr ⟨m, hm, by simp [hField]⟩)

/-- A child that is looked up by a field, or else is the first named one, is a child. -/
theorem mem_children_of_or {name : String}
    (h : (n.childByField? name).or n.namedChildren.head? = some m) : m ∈ n.children := by
  rcases Option.or_eq_some_iff.mp h with hField | ⟨_, hFirst⟩
  · exact (mem_of_childByField? hField).1
  · exact mem_children_of_mem_namedChildren (List.mem_of_head? hFirst)

theorem mem_nodes_of_object? (h : n.object? = some m) : m ∈ n.nodes := by
  obtain ⟨object, hObject, rfl⟩ := Option.map_eq_some_iff.mp h
  exact mem_nodes_trans (unwrap_mem_nodes object)
    (mem_nodes_of_mem_children (mem_children_of_or hObject))

/-- The parentheses of a node are its first opening one and the first closing one behind that. -/
theorem parentheses?_eq_some_iff {opening closing : Node} {inner : List Node} :
    n.parentheses? = some (opening, inner, closing) ↔ ∃ before behind,
      n.children = before ++ opening :: (inner ++ closing :: behind) ∧ opening.kind = "(" ∧
      closing.kind = ")" ∧ (∀ c ∈ before, c.kind ≠ "(") ∧ ∀ c ∈ inner, c.kind ≠ ")" := by
  constructor
  · intro h
    unfold parentheses? at h
    split at h
    · cases h
    · rename_i first rest hRest
      split at h
      · cases h
      · rename_i last behind hBehind
        obtain ⟨rfl, rfl, rfl⟩ : first = opening ∧ _ = inner ∧ last = closing := by
          simpa only [Option.some.injEq, Prod.mk.injEq] using h
        refine ⟨n.children.takeWhile fun c => c.kind != "(", behind, ?_, ?_, ?_, ?_, ?_⟩
        · rw [← hBehind, List.takeWhile_append_dropWhile, ← hRest, List.takeWhile_append_dropWhile]
        · have hNot := List.head_dropWhile_not (fun c : Node => c.kind != "(") (l := n.children)
          simpa [hRest] using hNot
        · have hNot := List.head_dropWhile_not (fun c : Node => c.kind != ")") (l := rest)
          simpa [hBehind] using hNot
        · exact fun c hc => by simpa using List.mem_takeWhile_imp hc
        · exact fun c hc => by simpa using List.mem_takeWhile_imp hc
  · rintro ⟨before, behind, hChildren, hOpening, hClosing, hBefore, hInner⟩
    have hFirst : ∀ c ∈ before, (c.kind != "(") = true := by simpa using hBefore
    have hSecond : ∀ c ∈ inner, (c.kind != ")") = true := by simpa using hInner
    simp [parentheses?, hChildren, List.dropWhile_append_of_pos hFirst,
      List.dropWhile_append_of_pos hSecond, List.takeWhile_append_of_pos hSecond, hOpening, hClosing]

theorem mem_children_of_parentheses? {opening closing : Node} {inner : List Node}
    (h : n.parentheses? = some (opening, inner, closing)) :
    opening ∈ n.children ∧ closing ∈ n.children := by
  obtain ⟨before, behind, hChildren, _⟩ := parentheses?_eq_some_iff.mp h
  simp [hChildren]

/-- Comments do not change which parentheses a node has. -/
theorem exists_parentheses? {opening closing : Node} {before inner behind : List Node}
    (hCore : n.core = before ++ opening :: (inner ++ closing :: behind)) (hOpening : opening.kind = "(")
    (hClosing : closing.kind = ")") (hBefore : ∀ c ∈ before, c.kind ≠ "(")
    (hInner : ∀ c ∈ inner, c.kind ≠ ")") :
    ∃ between, n.parentheses? = some (opening, between, closing) := by
  obtain ⟨first, _, hFirst, hBefore', hRest⟩ := List.filter_eq_append_iff.mp hCore
  obtain ⟨gap, _, rfl, hGap, _, hRest⟩ := List.filter_eq_cons_iff.mp hRest
  obtain ⟨second, _, rfl, hInner', hRest⟩ := List.filter_eq_append_iff.mp hRest
  obtain ⟨gap', last, rfl, hGap', _, _⟩ := List.filter_eq_cons_iff.mp hRest
  have hKinds {list gap front : List Node} {kind : String} (hList : list.filter (!·.isComment) = front)
      (hGap : ∀ c ∈ gap, ¬(!c.isComment) = true) (hFront : ∀ c ∈ front, c.kind ≠ kind)
      (hKind : kind ≠ "comment") : ∀ c ∈ list ++ gap, c.kind ≠ kind := by
    rintro c hc rfl
    have hNot : c.isComment = false := by simpa [isComment] using hKind
    rcases List.mem_append.mp hc with hc | hc
    · exact hFront c (hList ▸ List.mem_filter.mpr ⟨hc, by simp [hNot]⟩) rfl
    · exact hGap c hc (by simp [hNot])
  refine ⟨second ++ gap', parentheses?_eq_some_iff.mpr
    ⟨first ++ gap, last, ?_, hOpening, hClosing, ?_, ?_⟩⟩
  · simp [hFirst]
  · exact hKinds hBefore' hGap hBefore (by decide)
  · exact hKinds hInner' hGap' hInner (by decide)

/-- A node without an opening parenthesis has no parentheses. -/
theorem parentheses?_eq_none (h : ∀ c ∈ n.core, c.kind ≠ "(") : n.parentheses? = none := by
  cases hParentheses : n.parentheses? with
  | none => rfl
  | some found =>
      obtain ⟨opening, inner, closing⟩ := found
      obtain ⟨_, _, _, hOpening, _⟩ := parentheses?_eq_some_iff.mp hParentheses
      have hMem := (mem_children_of_parentheses? hParentheses).1
      exact absurd hOpening (h opening (mem_core_of_kind hMem hOpening (by decide)))

/-- What stands between the parentheses of a node lies there, from left to right. -/
theorem WellFormed.parentheses (h : n.WellFormed text) {opening closing : Node} {inner : List Node}
    (hParentheses : n.parentheses? = some (opening, inner, closing)) :
    opening.span.Before closing.span ∧
      Ascending span (WellFormed text) opening.span.stop closing.span.start inner := by
  obtain ⟨before, behind, hChildren, _⟩ := parentheses?_eq_some_iff.mp hParentheses
  have hAll := h.ascending
  rw [hChildren] at hAll
  have hSub : (opening :: (inner ++ [closing])).Sublist
      (before ++ opening :: (inner ++ closing :: behind)) := by
    refine .trans ?_ (List.sublist_append_right before _)
    exact .cons_cons _ (List.Sublist.append_left (by simp) inner)
  have hThree := (hAll.sublist hSub).before
  simp only [List.map_cons, List.map_append, List.map_nil, List.pairwise_cons,
    List.pairwise_append, List.mem_append, List.mem_singleton] at hThree
  obtain ⟨hOpening, _, _, hClosing⟩ := hThree
  refine ⟨hOpening _ (.inr rfl), (hAll.sublist ?_).narrow fun c hc => ?_⟩
  · refine .trans ?_ (List.sublist_append_right before _)
    exact .cons _ (List.sublist_append_left inner _)
  · have hc := List.mem_map_of_mem (f := span) hc
    exact ⟨(hOpening _ (.inl hc)).2, (hClosing _ hc _ rfl).2⟩

/-- The arguments of a node that is shaped like a call lie below it between two parentheses, from left
to right. -/
structure Lists (text : String) (n : Node) (list : List Node) (s : Span) : Prop where
  below : ∀ a ∈ list, a ∈ n.nodes
  ascending : Ascending span (WellFormed text) s.start s.stop list
  fits : s.FitsIn text
  nonempty : s.start < s.stop
  inside : s.Between n.span.start n.span.stop

/-- An argument list that is found lies below the node, however deep it is nested. -/
theorem WellFormed.lists (h : n.WellFormed text) {list : List Node} {s : Span}
    (hList : n.argumentList? = some (list, s)) : n.Lists text list s := by
  fun_induction argumentList? n with
  | case1 n inner hInner _ ih =>
      have hMem : inner ∈ n.children := List.mem_of_find?_eq_some hInner
      have hLists := ih (h.child hMem) hList
      have hInside := h.laidOut.inside inner hMem
      refine { hLists with below := fun a ha => ?_, inside := hLists.inside.widen hInside.1 hInside.2 }
      exact mem_nodes_trans (hLists.below a ha) (mem_nodes_of_mem_children hMem)
  | case2 n hNone =>
      obtain ⟨⟨opening, inner, closing⟩, hParentheses, hPair⟩ := Option.map_eq_some_iff.mp hList
      obtain ⟨rfl, rfl⟩ := Prod.mk.inj hPair
      obtain ⟨hOpening, hClosing⟩ := mem_children_of_parentheses? hParentheses
      obtain ⟨hBefore, hInner⟩ := h.parentheses hParentheses
      have hFirst := h.child hOpening
      have hLast := h.child hClosing
      refine ⟨fun a ha => ?_, ?_, ⟨?_, hFirst.laidOut.fits.2.1, hLast.laidOut.fits.2.2⟩, ?_, ?_⟩
      · exact mem_nodes_of_mem_children
          (mem_of_parentheses? hParentheses (List.mem_filter.mp ha).1)
      · exact (hInner.sublist List.filter_sublist).widen hFirst.laidOut.fits.1 hLast.laidOut.fits.1
      · exact hBefore.1.le.trans hLast.laidOut.fits.1
      · exact hBefore.1.trans_le hLast.laidOut.fits.1
      · exact ⟨(h.laidOut.inside opening hOpening).1, (h.laidOut.inside closing hClosing).2⟩

/-- The argument list of a node starts no earlier than the parenthesis or the node that holds it. -/
theorem WellFormed.exists_opening (h : n.WellFormed text) {list : List Node} {s : Span}
    (hList : n.argumentList? = some (list, s)) :
    ∃ c ∈ n.children, (c.kind == "(" || c.isArgumentList) = true ∧ c.span.start ≤ s.start := by
  unfold argumentList? at hList
  split at hList
  · rename_i inner hInner
    have hMem : inner ∈ n.children := List.mem_of_find?_eq_some hInner
    refine ⟨inner, hMem, ?_, ((h.child hMem).lists hList).inside.1⟩
    simp [List.find?_some hInner]
  · obtain ⟨⟨opening, inner, closing⟩, hParentheses, hPair⟩ := Option.map_eq_some_iff.mp hList
    obtain ⟨rfl, rfl⟩ := Prod.mk.inj hPair
    obtain ⟨before, behind, hChildren, hOpening, _⟩ := parentheses?_eq_some_iff.mp hParentheses
    exact ⟨opening, by simp [hChildren], by simp [hOpening], le_rfl⟩

/-- The arguments of a node lie inside it, from left to right. -/
theorem WellFormed.arguments_ascending (h : n.WellFormed text) :
    Ascending span (WellFormed text) n.span.start n.span.stop n.arguments := by
  unfold arguments
  cases hList : n.argumentList? with
  | none => exact .nil
  | some list =>
      have hLists := h.lists hList
      exact hLists.ascending.widen hLists.inside.1 hLists.inside.2

/-- The parameters that a node declares lie in it from left to right. -/
theorem WellFormed.parameters_ascending (h : n.WellFormed text) :
    Ascending span (fun c => c.WellFormed text ∧ c.kind = "parameter") n.span.start n.span.stop
      n.parameterList.1 := by
  fun_induction parameterList n with
  | case1 n list hList _ ih =>
      have hMem : list ∈ n.children := List.mem_of_find?_eq_some hList
      have hInside := h.laidOut.inside list hMem
      exact (ih (h.child hMem)).widen hInside.1 hInside.2
  | case2 n _ =>
      exact (h.ascending.filter _).imp fun c ⟨hWell, hKind⟩ => ⟨hWell, beq_iff_eq.mp hKind⟩

/-- The value of an argument is the argument itself or below it. -/
theorem argumentValue_mem_nodes (n : Node) : n.argumentValue ∈ n.nodes := by
  unfold argumentValue
  split
  · cases hNamed : n.namedChildren with
    | nil => exact self_mem_nodes n
    | cons first rest =>
        have hFirst : first ∈ n.namedChildren := by simp [hNamed]
        exact mem_nodes_of_mem_children (mem_children_of_mem_namedChildren hFirst)
  · exact self_mem_nodes n

/-- Outside of members and events the walk goes on to children. -/
theorem further_sublist (hMember : n.kind ≠ "member_expression") (hEmit : n.kind ≠ "emit_statement") :
    n.further.Sublist n.children := by
  unfold further
  split
  · exact List.nil_sublist _
  · exact List.nil_sublist _
  · exact List.nil_sublist _
  · contradiction
  · contradiction
  · exact List.filter_sublist
  · split
    · exact withoutKeys_sublist _
    · exact .refl _

/-- The step of the walk: it goes on to nodes inside the node, from left to right. -/
theorem WellFormed.further_ascending (h : n.WellFormed text) :
    Ascending span (WellFormed text) n.span.start n.span.stop n.further := by
  by_cases hMember : n.kind = "member_expression"
  · rw [further, hMember]
    cases hObject : n.object? with
    | none => exact .nil
    | some object =>
        have hBelow := mem_nodes_of_object? hObject
        have hObject := h.of_mem_nodes hBelow
        exact .singleton hObject hObject.follows.nonempty (h.between hBelow)
  · by_cases hEmit : n.kind = "emit_statement"
    · rw [further, hEmit]
      refine h.ascending.flatMap fun c hc => ?_
      have hc := h.child hc
      split
      · unfold eventArguments
        split
        · have hEvent := unwrap_mem_nodes c
          have hIn := hc.between hEvent
          exact (hc.of_mem_nodes hEvent).arguments_ascending.widen hIn.1 hIn.2
        · exact .nil
      · exact .singleton hc hc.follows.nonempty ⟨le_rfl, le_rfl⟩
    · exact h.ascending.sublist (further_sublist hMember hEmit)

end SolNorm.Tree.Node
