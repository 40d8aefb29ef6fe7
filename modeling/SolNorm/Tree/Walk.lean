import SolNorm.Tree.Basic

/-!
The walk through the body of a function. From every node it goes on to some nodes inside that node;
which ones they are depends on its kind. The name of a member, the name of an event and the keys of
named values are passed over, and so is all of an inline assembly.
-/

namespace SolNorm.Tree.Node

theorem size_unwrap_le (n : Node) : n.unwrap.size ≤ n.size := by
  fun_induction unwrap n with
  | case1 n _ inner hNamed hLt ih => exact Nat.le_trans ih (Nat.le_of_lt hLt)
  | case2 => exact Nat.le_refl _
  | case3 => exact Nat.le_refl _

/-- The arguments of a node that is shaped like a call. -/
def arguments (n : Node) : List Node := (n.argumentList?.map Prod.fst).getD []

theorem mem_of_parentheses? {n opening closing : Node} {inner : List Node}
    (h : n.parentheses? = some (opening, inner, closing)) {c : Node} (hc : c ∈ inner) :
    c ∈ n.children := by
  unfold parentheses? at h
  split at h
  · cases h
  · rename_i first rest hRest
    split at h <;> cases h
    have hc : c ∈ rest := List.takeWhile_subset _ hc
    exact List.dropWhile_subset _ (hRest ▸ List.mem_cons_of_mem _ hc)

theorem size_lt_of_mem_arguments {n a : Node} (h : a ∈ n.arguments) : a.size < n.size := by
  obtain ⟨list, hList, ha⟩ : ∃ list, n.argumentList? = some list ∧ a ∈ list.1 := by
    unfold arguments at h
    cases hList : n.argumentList? with
    | none => simp [hList] at h
    | some list => exact ⟨list, rfl, by simpa [hList] using h⟩
  clear h
  fun_induction argumentList? n with
  | case1 n inner hInner hLt ih => exact Nat.lt_trans (ih hList) hLt
  | case2 n _ =>
      obtain ⟨⟨opening, inner, closing⟩, hParentheses, rfl⟩ := Option.map_eq_some_iff.mp hList
      exact size_lt_of_mem (mem_of_parentheses? hParentheses (List.mem_filter.mp ha).1)

/-- The node that an entry of an argument list stands for. A block of named values stands for
itself. -/
def argumentValue (n : Node) : Node :=
  if n.kind == "call_argument" && !(n.children.any fun c => c.kind == "\x7b") then
    n.namedChildren.headD n
  else n

theorem size_argumentValue_le (n : Node) : n.argumentValue.size ≤ n.size := by
  unfold argumentValue
  split
  · cases hNamed : n.namedChildren with
    | nil => exact Nat.le_refl _
    | cons first rest =>
        have hFirst := mem_children_of_mem_namedChildren (n := n) (c := first) (by simp [hNamed])
        exact Nat.le_of_lt (size_lt_of_mem hFirst)
  · exact Nat.le_refl _

/-- Whether names before colons are keys among the children of a node. -/
def isKeyed (n : Node) : Bool :=
  n.children.any (fun c => c.kind == "\x7b") || n.kindMentions "argument" || n.kindMentions "field"

/-- Leave out the names that stand right before a colon. -/
def withoutKeys : List Node → List Node
  | c :: next :: rest =>
    if c.kind == "identifier" && next.kind == ":" then withoutKeys (next :: rest)
    else c :: withoutKeys (next :: rest)
  | rest => rest

def event? (n : Node) : Option Node := (n.childByField? "name").or n.namedChildren.head?

/-- Where the walk goes on from the node of an event: nowhere, unless the event is called as well. -/
def eventArguments (n : Node) : List Node :=
  if n.unwrap.kind == "call_expression" then n.unwrap.arguments else []

/-- Where the walk goes on from a node. -/
def further (n : Node) : List Node :=
  match n.kind with
  | "assembly_statement" | "comment" | "identifier" => []
  | "member_expression" => n.object?.toList
  | "emit_statement" =>
    n.children.flatMap fun c => if n.event?.any c.isSame then c.eventArguments else [c]
  | "new_expression" =>
    n.children.filter fun c => !(["type_name", "user_defined_type", "identifier"].contains c.kind)
  | _ => if n.isKeyed then withoutKeys n.children else n.children

theorem withoutKeys_sublist (list : List Node) : (withoutKeys list).Sublist list := by
  fun_induction withoutKeys list with
  | case1 c next rest _ ih => exact ih.cons _
  | case2 c next rest _ ih => exact ih.cons_cons _
  | case3 => exact .refl _

theorem size_lt_of_mem_further {n m : Node} (h : m ∈ n.further) : m.size < n.size := by
  unfold further at h
  split at h
  · cases h
  · cases h
  · cases h
  · obtain ⟨object, hObject, rfl⟩ := Option.map_eq_some_iff.mp (Option.mem_toList.mp h)
    refine Nat.lt_of_le_of_lt (size_unwrap_le object) (size_lt_of_mem ?_)
    rcases Option.or_eq_some_iff.mp hObject with hField | ⟨_, hFirst⟩
    · exact List.mem_of_find?_eq_some hField
    · exact mem_children_of_mem_namedChildren (List.mem_of_head? hFirst)
  · obtain ⟨c, hc, hm⟩ := List.mem_flatMap.mp h
    have hLt := size_lt_of_mem hc
    split at hm
    · unfold eventArguments at hm
      split at hm
      · have := size_lt_of_mem_arguments hm
        have := size_unwrap_le c
        omega
      · cases hm
    · obtain rfl := List.mem_singleton.mp hm
      exact hLt
  · exact size_lt_of_mem (List.mem_filter.mp h).1
  · split at h
    · exact size_lt_of_mem ((withoutKeys_sublist _).subset h)
    · exact size_lt_of_mem h

end SolNorm.Tree.Node
