import SolNorm.Text.Span

/-!
Concrete syntax trees. A node has a kind, the bytes it covers and its children from left to right;
a parent may call a child by the name of a field. Nodes that a rule of the grammar makes are named,
the others are the words and marks of the text, and their kind is their spelling.
-/

namespace SolNorm.Tree

structure Node where
  kind : String
  /-- What the parent calls the node. -/
  field : Option String
  isNamed : Bool
  /-- The text lacks the node, which was added to go on. -/
  isMissing : Bool
  span : Span
  children : List Node

instance : Inhabited Node := ⟨⟨"", none, false, false, default, []⟩⟩

namespace Node

mutual

def size : Node → Nat
  | ⟨_, _, _, _, _, children⟩ => sizeAll children + 1

def sizeAll : List Node → Nat
  | [] => 0
  | n :: rest => n.size + sizeAll rest

end

/-- Whether a word is part of the name of a kind. -/
def kindMentions (n : Node) (word : String) : Bool := go n.kind.toList
where
  go : List Char → Bool
    | [] => false
    | c :: cs => word.toList.isPrefixOf (c :: cs) || go cs

/-- What could not be read. -/
def isError (n : Node) : Bool := n.kind == "ERROR"

def isComment (n : Node) : Bool := n.kind == "comment"

def text (n : Node) (source : String) : String := n.span.slice source

/-- Whether two nodes of a tree are the same one. -/
def isSame (n m : Node) : Bool := n.kind == m.kind && n.span == m.span

def namedChildren (n : Node) : List Node := n.children.filter fun c => c.isNamed && !c.isComment

def childByField? (n : Node) (name : String) : Option Node :=
  n.children.find? fun c => c.field == some name

def childOfKind? (n : Node) (kind : String) : Option Node := n.children.find? fun c => c.kind == kind

/-- The first opening parenthesis among the children, what stands behind it, and the first closing
one there. -/
def parentheses? (n : Node) : Option (Node × List Node × Node) :=
  match n.children.dropWhile fun c => c.kind != "(" with
  | [] => none
  | opening :: rest =>
    match rest.dropWhile fun c => c.kind != ")" with
    | [] => none
    | closing :: _ => some (opening, rest.takeWhile fun c => c.kind != ")", closing)

/-- The kinds that only wrap another node. -/
def isWrapper (n : Node) : Bool := ["expression", "statement", "primary_expression"].contains n.kind

/-- The kinds that hold the arguments of a call. -/
def isArgumentList (n : Node) : Bool :=
  ["call_arguments", "arguments", "argument_list"].contains n.kind

theorem size_lt_of_mem {n c : Node} (h : c ∈ n.children) : c.size < n.size := by
  have hAll : ∀ {list : List Node}, c ∈ list → c.size ≤ sizeAll list := by
    intro list hc
    induction list with
    | nil => cases hc
    | cons d rest ih =>
        rw [sizeAll]
        rcases List.mem_cons.mp hc with rfl | hc
        · omega
        · have := ih hc
          omega
  obtain ⟨kind, field, isNamed, isMissing, span, children⟩ := n
  rw [size]
  exact Nat.lt_succ_of_le (hAll h)

theorem mem_children_of_mem_namedChildren {n c : Node} (h : c ∈ n.namedChildren) : c ∈ n.children :=
  (List.mem_filter.mp h).1

/-- The first node that has no children, going down the first child each time. -/
def firstLeaf (n : Node) : Node :=
  match h : n.children with
  | [] => n
  | first :: _ =>
    have := size_lt_of_mem (n := n) (c := first) (by simp [h])
    firstLeaf first
termination_by n.size

/-- The node inside the wrappers that have no other. -/
def unwrap (n : Node) : Node :=
  if n.isWrapper then
    match h : n.namedChildren with
    | [inner] =>
      have := size_lt_of_mem (mem_children_of_mem_namedChildren (n := n) (c := inner) (by simp [h]))
      unwrap inner
    | _ => n
  else n
termination_by n.size

/-- The node before the point of an access to a member. -/
def object? (n : Node) : Option Node :=
  ((n.childByField? "object").or n.namedChildren.head?).map unwrap

/-- The arguments of a node that is shaped like a call, and the bytes of their parentheses. -/
def argumentList? (n : Node) : Option (List Node × Span) :=
  match h : n.children.find? isArgumentList with
  | some list =>
    have := size_lt_of_mem (List.mem_of_find?_eq_some h)
    argumentList? list
  | none => n.parentheses?.map fun (opening, inner, closing) =>
    (inner.filter fun c => c.isNamed && !c.isComment, ⟨opening.span.start, closing.span.stop⟩)
termination_by n.size

/-- The parameters that a node declares, and the bytes of their parentheses. -/
def parameterList (n : Node) : List Node × Option Span :=
  match h : n.childOfKind? "parameter_list" with
  | some list =>
    have := size_lt_of_mem (List.mem_of_find?_eq_some h)
    parameterList list
  | none =>
    (n.children.filter fun c => c.kind == "parameter",
      n.parentheses?.map fun (opening, _, closing) => ⟨opening.span.start, closing.span.stop⟩)
termination_by n.size

/-- The first node that could not be read or is missing. -/
def firstError? (n : Node) : Option Node :=
  if n.isError || n.isMissing then some n
  else n.children.attach.findSome? fun ⟨c, _⟩ => firstError? c
termination_by n.size
decreasing_by exact size_lt_of_mem ‹_›

end Node

end SolNorm.Tree
