import SolNorm.Proofs.Outline.Placement
import SolNorm.Proofs.Tree.Walk

/-!
What is found in a node of a well-formed tree is placed in that node. The walk comes to no byte twice,
so names come from left to right. The name of a call is read before its arguments, at a place which the
walk passes over or where it finds no other call; so no byte belongs to the names of two calls.
-/

namespace SolNorm.Outline

open Finds hiding none

variable {text : String} {n : Tree.Node}

/-- What a node contributes by itself. -/
def findsAt (text : String) (n : Tree.Node) : Finds :=
  match n.kind with
  | "identifier" => mention text n
  | "variable_declaration" => ⟨[variableOf text n], [], []⟩
  | "call_expression" => ⟨[], (callOf? text n (n.arguments.map (argumentOf text))).toList, []⟩
  | _ => .none

/-- What is found in a node is what it contributes by itself, and then what is found where the walk
goes on. -/
theorem findsOf_eq (text : String) (n : Tree.Node) :
    findsOf text n = findsAt text n ++ findsOfAll text n.further := by
  have hUnfolded := findsOf.eq_1 text n
  simp only [List.map_subtype, List.unattach_attach] at hUnfolded
  exact hUnfolded

/-- Only the nodes of calls contribute calls. -/
theorem calls_findsAt (hKind : n.kind ≠ "call_expression") : (findsAt text n).calls = [] := by
  unfold findsAt
  split
  · unfold mention
    split <;> rfl
  · rfl
  · contradiction
  · rfl

/-- A call that is found in a node is made by the node or found where the walk goes on. -/
theorem mem_calls_findsOf {d : Call} : d ∈ (findsOf text n).calls ↔
    d ∈ (findsAt text n).calls ∨ ∃ m ∈ n.further, d ∈ (findsOf text m).calls := by
  rw [findsOf_eq, ← mem_calls_join]
  exact List.mem_append

section Declarations

/-- The kinds of nodes that declare a variable. -/
def declarations : List String :=
  ["parameter", "variable_declaration", "state_variable_declaration", "constant_variable_declaration"]

open Tree.Production in
/-- A declaration starts with its type. -/
theorem exists_type (h : n.WellFormed text) (hKind : n.kind ∈ declarations) :
    ∃ t rest, n.core = t :: rest ∧ t.label = ⟨"type_name", true, some "type"⟩ := by
  simp only [declarations, List.mem_cons, List.not_mem_nil, or_false] at hKind
  rcases hKind with hKind | hKind | hKind | hKind
  · exact starts_char.mul.mul _ (h.matches_core (by rw [hKind]; rfl))
  · exact starts_char.mul.mul _ (h.matches_core (by rw [hKind]; rfl))
  · exact starts_char.mul.mul.mul.mul _ (h.matches_core (by rw [hKind]; rfl))
  · exact starts_char.mul.mul.mul.mul.mul _ (h.matches_core (by rw [hKind]; rfl))

variable {t m : Tree.Node} {rest among : List Tree.Node}

/-- The type of a declaration is its first child. -/
theorem typeNode_eq (h : n.WellFormed text) (hCore : n.core = t :: rest)
    (hType : t.label = ⟨"type_name", true, some "type"⟩) : typeNode n = t := by
  have hField : t.field = some "type" := congrArg Tree.Label.field hType
  rw [typeNode, h.childByField?_eq, hCore, List.find?_cons_of_pos (by simp [hField])]
  rfl

/-- The name of a declaration stands behind its type. -/
theorem before_of_nameNode? (h : n.WellFormed text) (hCore : n.core = t :: rest)
    (hType : t.label = ⟨"type_name", true, some "type"⟩) (hAmong : among ⊆ n.children)
    (hName : nameNode? n among = some m) : m ∈ n.children ∧ t.span.Before m.span := by
  obtain ⟨hKind, -, hField⟩ := Tree.Label.mk.inj hType
  have hCases : m ∈ n.core ∧ m ≠ t := by
    rcases Option.or_eq_some_iff.mp hName with hName | ⟨_, hName⟩
    · obtain ⟨hm, hNamed⟩ := Tree.Node.mem_of_childByField? hName
      refine ⟨h.mem_core_of_field hm hNamed, ?_⟩
      rintro rfl
      simp [hField] at hNamed
    · have hIdentifier : m.kind = "identifier" := by
        have hFound := List.find?_some hName
        simp only [Bool.and_eq_true, beq_iff_eq] at hFound
        exact hFound.1
      have hm := hAmong (List.mem_reverse.mp (List.mem_of_find?_eq_some hName))
      refine ⟨Tree.Node.mem_core_iff.mpr ⟨hm, by simp [hIdentifier]⟩, ?_⟩
      rintro rfl
      simp [hKind] at hIdentifier
  obtain ⟨hm, hNe⟩ := hCases
  refine ⟨Tree.Node.mem_children_of_mem_core hm, ?_⟩
  rw [hCore] at hm
  have hBehind := (List.mem_cons.mp hm).resolve_left hNe
  exact h.before_of_core [t] rest hCore List.mem_cons_self hBehind

/-- What a declaration says of the type and the name of a variable is placed. -/
theorem placed_of_declaration (h : n.WellFormed text) (hKind : n.kind ∈ declarations)
    (hAmong : among ⊆ n.children) {v : Variable} (hSpan : v.span = n.span)
    (hType : v.type.span = (typeNode n).span)
    (hName : v.name = (nameNode? n among).map fun m => m.text text)
    (hNameSpan : v.nameSpan = (nameNode? n among).map Tree.Node.span)
    (hCalls : CallsPlaced text n.span v.calls) : v.Placed text := by
  obtain ⟨t, rest, hCore, ht⟩ := exists_type h hKind
  have hMem : t ∈ n.children := Tree.Node.mem_children_of_mem_core (by simp [hCore])
  rw [typeNode_eq h hCore ht] at hType
  refine ⟨hSpan ▸ h.laidOut.fits, ?_, ?_, hSpan ▸ hCalls⟩
  · rw [hSpan, hType, Span.encloses_iff]
    exact ⟨(h.child hMem).laidOut.fits, h.laidOut.inside t hMem⟩
  · rw [hName, hNameSpan]
    cases hFound : nameNode? n among with
    | none => exact .none
    | some m =>
        obtain ⟨hm, hBefore⟩ := before_of_nameNode? h hCore ht hAmong hFound
        have hm' := h.child hm
        refine .some ⟨⟨hm'.follows.nonempty, hm'.slice?⟩, ?_, hType ▸ hBefore⟩
        rw [hSpan, Span.encloses_iff]
        exact h.laidOut.inside m hm

/-- The variable that a declaration stands for is placed where the declaration lies. -/
theorem variableOf_placed (h : n.WellFormed text) (hKind : n.kind ∈ declarations) :
    (variableOf text n).Placed text :=
  placed_of_declaration h hKind (List.Subset.refl _) rfl rfl rfl rfl callsPlaced_nil

end Declarations

section Callees

variable {c : Tree.Node} {r : Receiver}

/-- What is called by a node, with or without settings. -/
theorem function?_cases {g : Tree.Node} (h : function? n = some g) :
    ∃ f, (n.childByField? "function").or n.namedChildren.head? = some f ∧
      (g = f.unwrap ∨ f.unwrap.kind = "struct_expression" ∧
        ∃ t, f.unwrap.namedChildren.head? = some t ∧ g = t.unwrap) := by
  obtain ⟨f, hf, hg⟩ := Option.bind_eq_some_iff.mp h
  refine ⟨f, hf, ?_⟩
  dsimp only at hg
  split at hg
  · rename_i hStruct
    obtain ⟨t, ht, hg⟩ := Option.bind_eq_some_iff.mp hg
    exact .inr ⟨by simpa using hStruct, t, ht, (Option.some.inj hg).symm⟩
  · exact .inl (Option.some.inj hg).symm

/-- The name of a call is what is called, or the member of it. -/
theorem callee?_cases (h : callee? text n = some (c, r)) :
    ∃ g, function? n = some g ∧ (g.kind = "identifier" ∧ c = g ∨ g.kind = "member_expression" ∧
      (g.childByField? "property").or g.namedChildren.getLast? = some c) := by
  obtain ⟨g, hg, h⟩ := Option.bind_eq_some_iff.mp h
  refine ⟨g, hg, ?_⟩
  split at h
  · rename_i hKind
    dsimp only at h
    split at h <;> cases h
    exact .inl ⟨hKind, rfl⟩
  · rename_i hKind
    obtain ⟨property, hProperty, h⟩ := Option.bind_eq_some_iff.mp h
    obtain ⟨object, _, h⟩ := Option.bind_eq_some_iff.mp h
    cases h
    exact .inr ⟨hKind, hProperty⟩
  · cases h

theorem mem_nodes_of_callee? (h : callee? text n = some (c, r)) : c ∈ n.nodes := by
  obtain ⟨g, hFunction, hc⟩ := callee?_cases h
  obtain ⟨f, hf, hg⟩ := function?_cases hFunction
  have hBelow : g ∈ n.nodes := by
    have hf := Tree.Node.mem_nodes_of_mem_children (Tree.Node.mem_children_of_or hf)
    have hUnwrap := Tree.Node.mem_nodes_trans (Tree.Node.unwrap_mem_nodes f) hf
    rcases hg with rfl | ⟨_, t, ht, rfl⟩
    · exact hUnwrap
    · have ht := Tree.Node.mem_children_of_mem_namedChildren (List.mem_of_head? ht)
      exact Tree.Node.mem_nodes_trans (Tree.Node.unwrap_mem_nodes t)
        (Tree.Node.mem_nodes_trans (Tree.Node.mem_nodes_of_mem_children ht) hUnwrap)
  rcases hc with ⟨_, rfl⟩ | ⟨_, hProperty⟩
  · exact hBelow
  · refine Tree.Node.mem_nodes_trans (Tree.Node.mem_nodes_of_mem_children ?_) hBelow
    rcases Option.or_eq_some_iff.mp hProperty with hField | ⟨_, hLast⟩
    · exact (Tree.Node.mem_of_childByField? hField).1
    · exact Tree.Node.mem_children_of_mem_namedChildren (List.mem_of_getLast? hLast)

/-- The call that a node contributes has a name, a receiver and an argument list. -/
theorem exists_callee {d : Call} (hd : d ∈ (findsAt text n).calls) :
    n.kind = "call_expression" ∧ ∃ callee receiver list, callee? text n = some (callee, receiver) ∧
      n.argumentList? = some list ∧ d = ⟨callee.text text, callee.span, receiver,
        n.arguments.map (argumentOf text), ⟨callee.span.start, n.span.stop⟩⟩ := by
  by_cases hKind : n.kind = "call_expression"
  · refine ⟨hKind, ?_⟩
    simp only [findsAt, hKind, Option.mem_toList] at hd
    obtain ⟨⟨callee, receiver⟩, hCallee, hd⟩ := Option.bind_eq_some_iff.mp hd
    obtain ⟨list, hList, hd⟩ := Option.bind_eq_some_iff.mp hd
    exact ⟨callee, receiver, list, hCallee, hList, (Option.some.inj hd).symm⟩
  · rw [calls_findsAt hKind] at hd
    cases hd

/-- Calls that are found in a node are named inside it. -/
theorem callee_between {n : Tree.Node} (h : n.WellFormed text) {d : Call}
    (hd : d ∈ (findsOf text n).calls) :
    d.calleeSpan.start < d.calleeSpan.stop ∧ d.calleeSpan.Between n.span.start n.span.stop := by
  rcases mem_calls_findsOf.mp hd with hd | ⟨m, hm, hd⟩
  · obtain ⟨_, callee, receiver, list, hCallee, _, rfl⟩ := exists_callee hd
    have hBelow := mem_nodes_of_callee? hCallee
    exact ⟨(h.of_mem_nodes hBelow).follows.nonempty, h.between hBelow⟩
  · obtain ⟨hm', _, hIn⟩ := h.further_ascending.each m hm
    have := Tree.Node.size_lt_of_mem_further hm
    obtain ⟨hLt, hCallee⟩ := callee_between hm' hd
    exact ⟨hLt, hCallee.widen hIn.1 hIn.2⟩
termination_by n.size

open Tree.Production in
/-- Access to a member has two different parts. -/
theorem exists_member (h : n.WellFormed text) (hKind : n.kind = "member_expression") :
    ∃ object property, n.childByField? "object" = some object ∧
      n.childByField? "property" = some property := by
  have hMatches := h.matches_core (by rw [hKind]; rfl)
  obtain ⟨front, last, hCore, hFront, hLast⟩ := matches_mul_iff.mp hMatches
  obtain ⟨first, point, rfl, hFirst, _⟩ := matches_mul_iff.mp hFront
  have hFound {m : Tree.Node} {name : String} (hm : m ∈ n.core) (hField : m.field = some name) :
      ∃ c, n.childByField? name = some c :=
    Tree.Node.exists_childByField? (Tree.Node.mem_children_of_mem_core hm) hField
  obtain ⟨object, hObject⟩ : ∃ object, n.childByField? "object" = some object := by
    rcases matches_add_iff.mp hFirst with hFirst | hFirst
    · obtain ⟨object, rfl, hObject⟩ := matches_char_iff.mp hFirst
      exact hFound (m := object) (by simp [hCore]) (congrArg Tree.Label.field hObject)
    · obtain ⟨object, rfl, hObject⟩ := matches_char_iff.mp hFirst
      exact hFound (m := object) (by simp [hCore]) (congrArg Tree.Label.field hObject)
  obtain ⟨p, rfl, hLabel⟩ := matches_char_iff.mp hLast
  obtain ⟨property, hProperty⟩ :=
    hFound (m := p) (by simp [hCore]) (congrArg Tree.Label.field hLabel)
  exact ⟨object, property, hObject, hProperty⟩

/-- A node that lies below another one, apart from the names of all calls that are found there. -/
structure Names (text : String) (n c : Tree.Node) : Prop where
  below : c ∈ n.nodes
  apart : ∀ d ∈ (findsOf text n).calls, d.calleeSpan.Disjoint c.span

namespace Names

/-- The name is apart from the calls that are found in all children if it is for one of them. -/
theorem apart_of_child (h : n.WellFormed text) {f m : Tree.Node} (hf : f ∈ n.children)
    (hNames : Names text f c) (hm : m ∈ n.children) :
    ∀ d ∈ (findsOf text m).calls, d.calleeSpan.Disjoint c.span := by
  intro d hd
  rcases h.eq_or_disjoint hm hf with rfl | hApart
  · exact hNames.apart d hd
  · obtain ⟨hLt, hIn⟩ := callee_between (h.child hm) hd
    have hc := (h.child hf).of_mem_nodes hNames.below
    exact hApart.of_between hIn hLt ((h.child hf).between hNames.below) hc.follows.nonempty

/-- The step from a child to its parent. -/
theorem of_child (h : n.WellFormed text) {f : Tree.Node} (hf : f ∈ n.children)
    (hNames : Names text f c) (hCall : n.kind ≠ "call_expression")
    (hFurther : n.further ⊆ n.children) : Names text n c where
  below := Tree.Node.mem_nodes_trans hNames.below (Tree.Node.mem_nodes_of_mem_children hf)
  apart d hd := by
    rcases mem_calls_findsOf.mp hd with hd | ⟨m, hm, hd⟩
    · rw [calls_findsAt hCall] at hd
      cases hd
    · exact apart_of_child h hf hNames (hFurther hm) d hd

/-- Wrappers around a node add no calls. -/
theorem of_unwrap (h : n.WellFormed text) (hNames : Names text n.unwrap c) : Names text n c := by
  fun_induction Tree.Node.unwrap n with
  | case1 n hWrapper inner hNamed _ ih =>
      have hInner : inner ∈ n.children :=
        Tree.Node.mem_children_of_mem_namedChildren (by simp [hNamed])
      have hKind (kind : String) (hNot : kind ∉ ["expression", "statement", "primary_expression"]) :
          n.kind ≠ kind := by
        rintro rfl
        exact hNot (List.contains_iff_mem.mp hWrapper)
      refine of_child h hInner (ih (h.child hInner) hNames) (hKind _ (by decide)) ?_
      exact (Tree.Node.further_sublist (hKind _ (by decide)) (hKind _ (by decide))).subset
  | case2 => exact hNames
  | case3 => exact hNames

theorem identifier (hKind : n.kind = "identifier") : Names text n n where
  below := Tree.Node.self_mem_nodes n
  apart d hd := by
    rcases mem_calls_findsOf.mp hd with hd | ⟨m, hm, _⟩
    · rw [calls_findsAt (by simp [hKind])] at hd
      cases hd
    · simp [Tree.Node.further, hKind] at hm

/-- The name of a member is apart from what is found before the point. -/
theorem member (h : n.WellFormed text) (hKind : n.kind = "member_expression")
    (hc : (n.childByField? "property").or n.namedChildren.getLast? = some c) : Names text n c := by
  obtain ⟨object, property, hObject, hProperty⟩ := exists_member h hKind
  obtain rfl : property = c := by simpa [hProperty] using hc
  obtain ⟨hObjectMem, hObjectField⟩ := Tree.Node.mem_of_childByField? hObject
  obtain ⟨hMem, hField⟩ := Tree.Node.mem_of_childByField? hProperty
  have hApart : object.span.Disjoint property.span := by
    refine (h.eq_or_disjoint hObjectMem hMem).resolve_left ?_
    rintro rfl
    simp [hObjectField] at hField
  refine ⟨Tree.Node.mem_nodes_of_mem_children hMem, fun d hd => ?_⟩
  rcases mem_calls_findsOf.mp hd with hd | ⟨m, hm, hd⟩
  · rw [calls_findsAt (by simp [hKind])] at hd
    cases hd
  · obtain rfl : m = object.unwrap := by
      simpa [Tree.Node.further, hKind, Tree.Node.object?, hObject] using hm
    have hInner := h.child hObjectMem
    have hUnwrap := Tree.Node.unwrap_mem_nodes object
    obtain ⟨hLt, hIn⟩ := callee_between (hInner.of_mem_nodes hUnwrap) hd
    have hOuter := hInner.between hUnwrap
    exact hApart.of_between (hIn.widen hOuter.1 hOuter.2) hLt ⟨le_rfl, le_rfl⟩
      (h.child hMem).follows.nonempty

/-- Settings of a call stand behind what is called. -/
theorem of_settings (h : n.WellFormed text) (hKind : n.kind = "struct_expression") {t : Tree.Node}
    (ht : n.namedChildren.head? = some t) (hNames : Names text t.unwrap c) : Names text n c := by
  have hMem := Tree.Node.mem_children_of_mem_namedChildren (List.mem_of_head? ht)
  refine of_child h hMem (of_unwrap (h.child hMem) hNames) (by simp [hKind]) ?_
  exact (Tree.Node.further_sublist (by simp [hKind]) (by simp [hKind])).subset

end Names

open Tree.Production in
/-- The name of a call is in its first part, and apart from the calls that are found there. -/
theorem exists_names (h : n.WellFormed text) (hKind : n.kind = "call_expression")
    (hCallee : callee? text n = some (c, r)) :
    ∃ f rest, n.core = f :: rest ∧ f.kind = "expression" ∧ Names text f c := by
  obtain ⟨f, rest, hCore, hLabel⟩ := starts_char.mul _ (h.matches_core (by rw [hKind]; rfl))
  obtain ⟨hExpression, -, hField⟩ := Tree.Label.mk.inj hLabel
  have hf : f ∈ n.children := Tree.Node.mem_children_of_mem_core (by simp [hCore])
  have hInner := h.child hf
  have hUnwrapped := hInner.of_mem_nodes (Tree.Node.unwrap_mem_nodes f)
  obtain ⟨g, hFunction, hc⟩ := callee?_cases hCallee
  obtain ⟨first, hFirst, hg⟩ := function?_cases hFunction
  obtain rfl : f = first := by
    rw [h.childByField?_eq, hCore, List.find?_cons_of_pos (by simp [hField])] at hFirst
    exact Option.some.inj hFirst
  have hNames (hWell : g.WellFormed text) : Names text g c := by
    rcases hc with ⟨hIdentifier, rfl⟩ | ⟨hMember, hProperty⟩
    · exact .identifier hIdentifier
    · exact .member hWell hMember hProperty
  refine ⟨f, rest, hCore, hExpression, .of_unwrap hInner ?_⟩
  rcases hg with rfl | ⟨hStruct, t, ht, rfl⟩
  · exact hNames hUnwrapped
  · have hMem := Tree.Node.mem_children_of_mem_namedChildren (List.mem_of_head? ht)
    have hWell := hUnwrapped.of_mem_nodes (Tree.Node.mem_nodes_trans (Tree.Node.unwrap_mem_nodes t)
      (Tree.Node.mem_nodes_of_mem_children hMem))
    exact .of_settings hUnwrapped hStruct ht (hNames hWell)

/-- The arguments of a call stand behind the name that it is made by. -/
theorem arguments_behind (h : n.WellFormed text) (hKind : n.kind = "call_expression")
    (hCallee : callee? text n = some (c, r)) {list : List Tree.Node} {s : Span}
    (hList : n.argumentList? = some (list, s)) : c.span.stop ≤ s.start := by
  obtain ⟨f, rest, hCore, hExpression, hNames⟩ := exists_names h hKind hCallee
  have hf : f ∈ n.children := Tree.Node.mem_children_of_mem_core (by simp [hCore])
  obtain ⟨opening, hMem, hOpening, hStart⟩ := h.exists_opening hList
  have hNe : opening ≠ f := by
    rintro rfl
    simp [hExpression, Tree.Node.isArgumentList] at hOpening
  have hOpeningCore : opening ∈ n.core := by
    refine Tree.Node.mem_core_iff.mpr ⟨hMem, fun hComment => ?_⟩
    simp [hComment, Tree.Node.isArgumentList] at hOpening
  have hBefore : f.span.Before opening.span := by
    rw [hCore, List.mem_cons] at hOpeningCore
    exact h.before_of_core [f] rest hCore List.mem_cons_self (hOpeningCore.resolve_left hNe)
  calc c.span.stop ≤ f.span.stop := ((h.child hf).between hNames.below).2
    _ ≤ opening.span.start := hBefore.2
    _ ≤ s.start := hStart

end Callees

/-- An expression is placed if what is found in it is. -/
theorem exprOf_placed (h : n.WellFormed text)
    (hFinds : (findsOf text n).Within text n.span.start n.span.stop) : (exprOf text n).Placed text :=
  ⟨h.laidOut.fits, hFinds.idents⟩

/-- The arguments of a list are placed if what is found in them is. -/
theorem argumentsOf_ascending {list : List Tree.Node} {lo hi : Nat}
    (h : Ascending Tree.Node.span (Tree.Node.WellFormed text) lo hi list)
    (hFinds : ∀ a ∈ list, (findsOf text a.argumentValue).Within text a.argumentValue.span.start
      a.argumentValue.span.stop) :
    Ascending Expr.span (Expr.Placed text) lo hi (list.map (argumentOf text)) := by
  refine h.map fun a ha => ?_
  have hWell := (h.each a ha).1
  have hBelow := Tree.Node.argumentValue_mem_nodes a
  have hValue := hWell.of_mem_nodes hBelow
  exact ⟨exprOf_placed hValue (hFinds a ha), hValue.follows.nonempty, hWell.between hBelow⟩

/-- A mentioned name is spelled by the bytes of its node. -/
theorem mention_within (h : n.WellFormed text) :
    (mention text n).Within text n.span.start n.span.stop := by
  unfold mention
  split
  · exact within_none
  · have hIdent : Ascending Ident.span (fun i => i.span.slice? text = some i.name) n.span.start
        n.span.stop [⟨n.text text, n.span⟩] :=
      .singleton h.slice? h.follows.nonempty ⟨le_rfl, le_rfl⟩
    exact { within_none with idents := hIdent }

/-- The call that a node makes is placed if what is found in its arguments is. -/
theorem call_placed (h : n.WellFormed text) {d : Call} (hd : d ∈ (findsAt text n).calls)
    (hFinds : ∀ a ∈ n.arguments, (findsOf text a.argumentValue).Within text
      a.argumentValue.span.start a.argumentValue.span.stop) :
    d.Placed text ∧ d.span.Between n.span.start n.span.stop := by
  obtain ⟨hKind, callee, receiver, ⟨list, s⟩, hCallee, hList, rfl⟩ := exists_callee hd
  have hBelow := mem_nodes_of_callee? hCallee
  have hWell := h.of_mem_nodes hBelow
  have hIn := h.between hBelow
  have hLists := h.lists hList
  have hArguments : n.arguments = list := by simp [Tree.Node.arguments, hList]
  refine ⟨⟨⟨?_, hWell.laidOut.fits.2.1, h.laidOut.fits.2.2⟩, ⟨⟨?_, hWell.slice?⟩, ?_⟩, ?_⟩,
    hIn.1, le_rfl⟩
  · exact hWell.laidOut.fits.1.trans hIn.2
  · exact hWell.follows.nonempty
  · exact Span.encloses_iff.mpr ⟨le_rfl, hIn.2⟩
  · refine argumentsOf_ascending (hArguments ▸ hLists.ascending.widen ?_ hLists.inside.2) hFinds
    exact arguments_behind h hKind hCallee hList

/-- The name of a call is apart from the names of all calls inside it. -/
theorem calls_apart (h : n.WellFormed text) {d : Call} (hd : d ∈ (findsAt text n).calls) :
    ∀ e ∈ (findsOfAll text n.further).calls, e.calleeSpan.Disjoint d.calleeSpan := by
  obtain ⟨hKind, callee, receiver, list, hCallee, _, rfl⟩ := exists_callee hd
  obtain ⟨f, rest, hCore, _, hNames⟩ := exists_names h hKind hCallee
  have hf : f ∈ n.children := Tree.Node.mem_children_of_mem_core (by simp [hCore])
  intro e he
  obtain ⟨m, hm, he⟩ := mem_calls_join.mp he
  have hSub := Tree.Node.further_sublist (n := n) (by simp [hKind]) (by simp [hKind])
  exact Names.apart_of_child h hf hNames (hSub.subset hm) e he

/-- What is found in a node of a well-formed tree is placed there. -/
theorem findsOf_within {n : Tree.Node} (h : n.WellFormed text) :
    (findsOf text n).Within text n.span.start n.span.stop := by
  have hFurther : (findsOfAll text n.further).Within text n.span.start n.span.stop := by
    refine within_join h.further_ascending fun m hm => ?_
    have := Tree.Node.size_lt_of_mem_further hm
    exact findsOf_within (h.further_ascending.each m hm).1
  have hArguments : ∀ a ∈ n.arguments, (findsOf text a.argumentValue).Within text
      a.argumentValue.span.start a.argumentValue.span.stop := by
    intro a ha
    have := Tree.Node.size_lt_of_mem_arguments ha
    have := Tree.Node.size_argumentValue_le a
    have hWell := (h.arguments_ascending.each a ha).1
    exact findsOf_within (hWell.of_mem_nodes (Tree.Node.argumentValue_mem_nodes a))
  rw [findsOf_eq]
  unfold findsAt
  split
  · rename_i hKind
    have hEnd : n.further = [] := by simp [Tree.Node.further, hKind]
    rw [hEnd]
    exact (append_none (mention text n)).symm ▸ mention_within h
  · rename_i hKind
    exact hFurther.variable (variableOf_placed h (by simp [hKind, declarations])) ⟨le_rfl, le_rfl⟩
  · rename_i hKind
    cases hCall : callOf? text n (n.arguments.map (argumentOf text)) with
    | none => exact hFurther
    | some d =>
        have hd : d ∈ (findsAt text n).calls := by simp [findsAt, hKind, hCall]
        obtain ⟨hPlaced, hIn⟩ := call_placed h hd hArguments
        exact hFurther.call hPlaced hIn (calls_apart h hd)
  · exact hFurther
termination_by n.size

end SolNorm.Outline
