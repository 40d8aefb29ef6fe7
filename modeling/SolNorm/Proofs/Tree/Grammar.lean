import Mathlib.Computability.RegularExpressions
import SolNorm.Proofs.Tree.Layout

/-!
Trees that follow the grammar of the language. A production says which children a node of its kind
has, in which order and under which names; comments may stand between them. The table has the
productions on which the places in an outline depend: those of contracts, functions, declarations
and calls. Where a kind has no production here, nothing is asked of its children.
-/

namespace SolNorm.Tree

/-- What a production sees of a child. -/
structure Label where
  kind : String
  isNamed : Bool
  field : Option String
  deriving DecidableEq

abbrev Production := RegularExpression Label

namespace Production

/-- A word or a mark of the text. -/
def mark (kind : String) : Production := .char ⟨kind, false, none⟩

def rule (kind : String) : Production := .char ⟨kind, true, none⟩

/-- A child that goes by the name of a field. -/
def slot (field kind : String) : Production := .char ⟨kind, true, some field⟩

def optional (p : Production) : Production := 1 + p

/-- Entries with commas between them. A comma may also stand after the last one. -/
def listed (entry comma : Production) : Production :=
  optional (entry * (comma * entry).star * optional comma)

/-- Arguments in parentheses, all in one field if they are in one at all. -/
def callArguments (field : Option String) : Production :=
  .char ⟨"(", false, field⟩ *
    listed (.char ⟨"call_argument", true, field⟩) (.char ⟨",", false, field⟩) *
      .char ⟨")", false, field⟩

def parameterList : Production := mark "(" * listed (rule "parameter") (mark ",") * mark ")"

def name : Production := slot "name" "identifier"

def location : Production :=
  .char ⟨"memory", false, some "location"⟩ + .char ⟨"storage", false, some "location"⟩ +
    .char ⟨"calldata", false, some "location"⟩

def heritage : Production :=
  mark "is" * rule "inheritance_specifier" * (mark "," * rule "inheritance_specifier").star *
    optional (mark ",")

/-- The attributes of a function. -/
def headerEntry : Production :=
  rule "modifier_invocation" + rule "visibility" + rule "state_mutability" + rule "virtual" +
    rule "override_specifier"

/-- A body, or the mark that stands for none. -/
def ending : Production := mark ";" + slot "body" "function_body"

/-- A definition that starts with a word, then has a name, parameters, what describes it, and an
end. -/
def routine (word name parameters description ending : Production) : Production :=
  word * name * parameters * description * ending

/-- A contract starts with words, then has a name, what it builds on, and a body. -/
def contract (words heritage : Production) : Production :=
  words * name * heritage * slot "body" "contract_body"

def members : Production :=
  rule "function_definition" + rule "modifier_definition" + rule "error_declaration" +
    rule "state_variable_declaration" + rule "struct_declaration" + rule "enum_declaration" +
    rule "event_definition" + rule "using_directive" + rule "constructor_definition" +
    rule "fallback_receive_definition" + rule "user_defined_type_definition"

end Production

open Production in
/-- The production of a kind of nodes. -/
def production? : String → Option Production
  | "contract_declaration" =>
    some (contract (optional (mark "abstract") * mark "contract")
      (heritage + rule "layout_specifier").star)
  | "interface_declaration" => some (contract (mark "interface") (optional heritage))
  | "library_declaration" => some (contract (mark "library") 1)
  | "contract_body" => some (mark "\x7b" * members.star * mark "\x7d")
  | "function_body" => some (mark "\x7b" * (rule "statement").star * mark "\x7d")
  | "function_definition" =>
    some (routine (mark "function") name parameterList
      (headerEntry.star * optional (slot "return_type" "return_type_definition")) ending)
  | "constructor_definition" =>
    some (routine (mark "constructor") 1 parameterList
      (rule "modifier_invocation" + mark "payable" + mark "internal" + mark "public").star
      (slot "body" "function_body"))
  | "modifier_definition" =>
    some (routine (mark "modifier") name (optional parameterList)
      (rule "virtual" + rule "override_specifier").star ending)
  | "fallback_receive_definition" =>
    some (routine (mark "fallback" + mark "receive" + mark "function") 1 parameterList
      (headerEntry.star * optional (mark "returns" * parameterList)) ending)
  | "return_type_definition" => some (mark "returns" * parameterList)
  | "inheritance_specifier" =>
    some (slot "ancestor" "user_defined_type" *
      optional (callArguments (some "ancestor_arguments")))
  | "modifier_invocation" =>
    some (rule "identifier" * (mark "." * rule "identifier").star * optional (callArguments none))
  | "parameter" => some (slot "type" "type_name" * optional location * optional name)
  | "variable_declaration" => some (slot "type" "type_name" * optional location * name)
  | "state_variable_declaration" =>
    some (slot "type" "type_name" * (slot "visibility" "visibility" + mark "constant" +
      rule "override_specifier" + rule "immutable" + slot "location" "state_location").star *
      name * optional (mark "=" * slot "value" "expression") * mark ";")
  | "constant_variable_declaration" =>
    some (slot "type" "type_name" * mark "constant" * name * mark "=" *
      slot "value" "expression" * mark ";")
  | "call_expression" => some (slot "function" "expression" * callArguments none)
  | "call_argument" =>
    some (rule "expression" + mark "\x7b" * listed (rule "call_struct_argument") (mark ",") *
      mark "\x7d")
  | "call_struct_argument" => some (name * mark ":" * slot "value" "expression")
  | "struct_expression" =>
    some (slot "type" "expression" * mark "\x7b" *
      listed (rule "struct_field_assignment") (mark ",") * mark "\x7d")
  | "member_expression" =>
    some ((slot "object" "expression" + slot "object" "identifier") * mark "." *
      slot "property" "identifier")
  | _ => none

namespace Node

def label (n : Node) : Label := ⟨n.kind, n.isNamed, n.field⟩

/-- The children without comments. -/
def core (n : Node) : List Node := n.children.filter fun c => !c.isComment

/-- A node has bytes. A word or a mark has no children and spells its kind, a comment starts with a
slash and has no name, and the children of a node with a production are what the production asks
for, from one end of the node to the other. -/
@[mk_iff] structure Follows (text : String) (n : Node) : Prop where
  nonempty : n.span.start < n.span.stop
  mark : n.isNamed = false → n.children = [] ∧ n.text text = n.kind
  comment : n.kind = "comment" → n.children = [] ∧ n.field = none ∧
    (n.text text).toList.head? = some '/'
  production : ∀ p ∈ production? n.kind, p.rmatch (n.core.map label) = true
  covers : (production? n.kind).isSome = true →
    n.core.head?.map (fun c => c.span.start) = some n.span.start ∧
    n.core.getLast?.map (fun c => c.span.stop) = some n.span.stop

instance (text : String) (n : Node) : Decidable (n.Follows text) :=
  decidable_of_iff _ (follows_iff text n).symm

/-- A node and everything below it is laid out in a text and follows the grammar. -/
def WellFormed (text : String) (n : Node) : Prop :=
  ∀ m ∈ n.nodes, m.LaidOut text ∧ m.Follows text

instance (text : String) (n : Node) : Decidable (n.WellFormed text) :=
  inferInstanceAs (Decidable (∀ m ∈ n.nodes, _))

/-- The tree of a whole text. A text may have no entries, so the root need not have bytes. -/
@[mk_iff] structure IsFile (text : String) (root : Node) : Prop where
  laidOut : root.LaidOut text
  entries : ∀ c ∈ root.children, c.WellFormed text

instance (text : String) (root : Node) : Decidable (root.IsFile text) :=
  decidable_of_iff _ (isFile_iff text root).symm

end Node

/-- What is asked of something that makes syntax trees: if the tree of a text has neither errors nor
gaps, then it is laid out in the text and follows the grammar. -/
def Fits (treeOf : String → Except String Node) (text : String) : Prop :=
  ∀ root, treeOf text = .ok root → root.IsComplete → root.IsFile text

namespace Production

variable {p q : Production} {list : List Node}

/-- The nodes are what a production asks for. -/
def Matches (p : Production) (list : List Node) : Prop := list.map Node.label ∈ p.matches'

/-- What a sequence matches falls into what its two parts match. -/
theorem matches_mul_iff :
    (p * q).Matches list ↔ ∃ first second, list = first ++ second ∧ p.Matches first ∧
      q.Matches second := by
  unfold Matches
  rw [RegularExpression.matches'_mul, Language.mem_mul]
  constructor
  · rintro ⟨a, ha, b, hb, hAppend⟩
    obtain ⟨first, second, rfl, rfl, rfl⟩ := List.map_eq_append_iff.mp hAppend.symm
    exact ⟨first, second, rfl, ha, hb⟩
  · rintro ⟨first, second, rfl, hFirst, hSecond⟩
    exact ⟨_, hFirst, _, hSecond, (List.map_append ..).symm⟩

theorem matches_add_iff : (p + q).Matches list ↔ p.Matches list ∨ q.Matches list :=
  Language.mem_add _ _ _

theorem matches_one_iff : (1 : Production).Matches list ↔ list = [] :=
  (Language.mem_one _).trans List.map_eq_nil_iff

theorem matches_char_iff {l : Label} :
    Matches (.char l) list ↔ ∃ n, list = [n] ∧ n.label = l := by
  show list.map Node.label = [l] ↔ _
  rw [List.map_eq_singleton_iff]

theorem matches_optional_iff : (optional p).Matches list ↔ list = [] ∨ p.Matches list := by
  rw [optional, matches_add_iff, matches_one_iff]

/-- Whatever a production matches starts with a node of some label. -/
def Starts (p : Production) (l : Label) : Prop :=
  ∀ list, p.Matches list → ∃ first rest, list = first :: rest ∧ first.label = l

theorem starts_char {l : Label} : Starts (.char l) l := by
  intro list h
  obtain ⟨first, rfl, hLabel⟩ := matches_char_iff.mp h
  exact ⟨first, [], rfl, hLabel⟩

/-- What follows does not change how a match starts. -/
theorem Starts.mul {l : Label} (h : p.Starts l) : (p * q).Starts l := by
  intro list hList
  obtain ⟨_, second, rfl, hFirst, _⟩ := matches_mul_iff.mp hList
  obtain ⟨first, rest, rfl, hLabel⟩ := h _ hFirst
  exact ⟨first, rest ++ second, rfl, hLabel⟩

/-- Whatever a production matches is one node. -/
def Single (p : Production) : Prop := ∀ list, p.Matches list → ∃ n, list = [n]

theorem single_char {l : Label} : Single (.char l) := by
  intro list h
  obtain ⟨n, rfl, _⟩ := matches_char_iff.mp h
  exact ⟨n, rfl⟩

theorem Single.add (hp : p.Single) (hq : q.Single) : (p + q).Single :=
  fun list h => (matches_add_iff.mp h).elim (hp list) (hq list)

/-- The labels that a production asks for. -/
def labels : Production → List Label
  | .zero | .epsilon => []
  | .char l => [l]
  | .plus p q | .comp p q => labels p ++ labels q
  | .star p => labels p

/-- By induction on the production: a word of it has only labels that stand in it. -/
theorem mem_labels {word : List Label} (h : word ∈ p.matches') : ∀ l ∈ word, l ∈ p.labels := by
  induction p generalizing word with
  | zero => cases h
  | epsilon => cases h; simp
  | char l => cases h; simp [labels]
  | plus p q hp hq =>
      intro l hl
      rcases h with h | h
      · exact List.mem_append_left _ (hp h l hl)
      · exact List.mem_append_right _ (hq h l hl)
  | comp p q hp hq =>
      obtain ⟨a, ha, b, hb, rfl⟩ := Language.mem_mul.mp h
      intro l hl
      rcases List.mem_append.mp hl with hl | hl
      · exact List.mem_append_left _ (hp ha l hl)
      · exact List.mem_append_right _ (hq hb l hl)
  | star p hp =>
      obtain ⟨words, rfl, hWords⟩ := Language.mem_kstar.mp h
      intro l hl
      obtain ⟨word, hMem, hl⟩ := List.mem_flatten.mp hl
      exact hp (hWords word hMem) l hl

/-- A production has no other nodes than it asks for. -/
theorem Matches.label_mem (h : p.Matches list) : ∀ n ∈ list, n.label ∈ p.labels :=
  fun n hn => mem_labels h n.label (List.mem_map_of_mem hn)

end Production

namespace Node

variable {text : String} {n c m : Node}

theorem mem_core_iff : c ∈ n.core ↔ c ∈ n.children ∧ c.kind ≠ "comment" := by
  simp [core, isComment]

theorem mem_children_of_mem_core (hc : c ∈ n.core) : c ∈ n.children := (mem_core_iff.mp hc).1

/-- A child of any other kind than a comment is in the core. -/
theorem mem_core_of_kind {kind : String} (hc : c ∈ n.children) (hKind : c.kind = kind)
    (hNot : kind ≠ "comment") : c ∈ n.core :=
  mem_core_iff.mpr ⟨hc, hKind ▸ hNot⟩

/-- The named children are those of the core that are no marks. -/
theorem namedChildren_eq (n : Node) : n.namedChildren = n.core.filter isNamed := by
  rw [namedChildren, core, List.filter_filter]

namespace WellFormed

theorem laidOut (h : n.WellFormed text) : n.LaidOut text := (h n (self_mem_nodes n)).1

theorem follows (h : n.WellFormed text) : n.Follows text := (h n (self_mem_nodes n)).2

theorem of_mem_nodes (h : n.WellFormed text) (hm : m ∈ n.nodes) : m.WellFormed text :=
  fun _ hk => h _ (mem_nodes_trans hk hm)

theorem child (h : n.WellFormed text) (hc : c ∈ n.children) : c.WellFormed text :=
  h.of_mem_nodes (mem_nodes_of_mem_children hc)

theorem of_core (h : n.WellFormed text) (hc : c ∈ n.core) : c.WellFormed text :=
  h.child (mem_children_of_mem_core hc)

/-- What is below a node lies inside it. -/
theorem between (h : n.WellFormed text) (hm : m ∈ n.nodes) :
    m.span.Between n.span.start n.span.stop := by
  induction n using induction with
  | h n ih =>
    rcases mem_nodes_iff.mp hm with rfl | ⟨c, hc, hm⟩
    · exact ⟨le_rfl, le_rfl⟩
    · have hInside := h.laidOut.inside c hc
      exact (ih c hc (h.child hc) hm).widen hInside.1 hInside.2

/-- The text of a well-formed node is what its bytes spell. -/
theorem slice? (h : n.WellFormed text) : n.span.slice? text = some (n.text text) :=
  Span.slice?_of_fitsIn h.laidOut.fits

/-- The children are what the production of the kind asks for. -/
theorem matches_core (h : n.WellFormed text) {p : Production} (hp : production? n.kind = some p) :
    p.Matches n.core :=
  (RegularExpression.rmatch_iff_matches' _ _).mp (h.follows.production p hp)

/-- Two children are one, or they have no byte in common. -/
theorem eq_or_disjoint (h : n.WellFormed text) {a b : Node} (ha : a ∈ n.children)
    (hb : b ∈ n.children) : a = b ∨ a.span.Disjoint b.span := by
  have : Std.Symm fun a b : Node => a = b ∨ a.span.Disjoint b.span :=
    ⟨fun _ _ hab => hab.imp Eq.symm Span.Disjoint.symm⟩
  have hPairwise : n.children.Pairwise fun a b => a = b ∨ a.span.Disjoint b.span :=
    (List.pairwise_map.mp h.laidOut.before).imp fun hab => .inr (.inl hab)
  exact hPairwise.forall_of_forall (fun a _ => .inl rfl) ha hb

/-- A child with a field is no comment. -/
theorem mem_core_of_field (h : n.WellFormed text) {name : String} (hc : c ∈ n.children)
    (hField : c.field = some name) : c ∈ n.core := by
  refine mem_core_iff.mpr ⟨hc, fun hComment => ?_⟩
  have hNone := ((h.child hc).follows.comment hComment).2.1
  rw [hField] at hNone
  cases hNone

/-- Comments are never found by a field. -/
theorem childByField?_eq (h : n.WellFormed text) (name : String) :
    n.childByField? name = n.core.find? fun c => c.field == some name := by
  rw [childByField?, core, List.find?_filter]
  refine List.find?_congr fun c hc => ?_
  by_cases hField : c.field = some name
  · have hNot := (mem_core_iff.mp (h.mem_core_of_field hc hField)).2
    simp [hField, isComment, hNot]
  · simp [hField]

/-- A field that only one child has is found. -/
theorem childByField?_eq_some (h : n.WellFormed text) {name : String} (hm : m ∈ n.core)
    (hField : m.field = some name) (hOnly : ∀ c ∈ n.core, c.field = some name → c = m) :
    n.childByField? name = some m := by
  rw [h.childByField?_eq]
  have hSome : (n.core.find? fun c => c.field == some name).isSome = true :=
    List.find?_isSome.mpr ⟨m, hm, by simp [hField]⟩
  obtain ⟨c, hFound⟩ := Option.isSome_iff_exists.mp hSome
  rw [hFound, hOnly c (List.mem_of_find?_eq_some hFound) (by simpa using List.find?_some hFound)]

/-- Without its comments the children still follow each other. -/
theorem core_before (h : n.WellFormed text) : n.core.Pairwise fun a b => a.span.Before b.span :=
  (List.pairwise_map.mp h.laidOut.before).sublist List.filter_sublist

/-- Of two parts of the children the first lies before the second. -/
theorem before_of_core (h : n.WellFormed text) (first second : List Node)
    (hCore : n.core = first ++ second) {a b : Node} (ha : a ∈ first) (hb : b ∈ second) :
    a.span.Before b.span := by
  have hBefore := h.core_before
  rw [hCore, List.pairwise_append] at hBefore
  exact hBefore.2.2 a ha b hb

/-- A word or a mark spells its kind. -/
theorem text_of_mark (h : n.WellFormed text) (hMark : n.isNamed = false) : n.text text = n.kind :=
  (h.follows.mark hMark).2

open Production in
/-- A node in braces has its named children between them. -/
theorem braced (h : n.WellFormed text) {p : Production}
    (hMatches : (Production.mark "\x7b" * p * Production.mark "\x7d").Matches n.core)
    (hKind : (production? n.kind).isSome = true) :
    n.span.Braced text ∧
      ∀ c ∈ n.namedChildren, c.span.Between (n.span.start + 1) (n.span.stop - 1) := by
  obtain ⟨front, _, hCore, hFront, hLast⟩ := matches_mul_iff.mp hMatches
  obtain ⟨_, inner, rfl, hFirst, _⟩ := matches_mul_iff.mp hFront
  obtain ⟨opening, rfl, hOpening⟩ := matches_char_iff.mp hFirst
  obtain ⟨closing, rfl, hClosing⟩ := matches_char_iff.mp hLast
  obtain ⟨hOpeningKind, hOpeningMark, -⟩ := Label.mk.inj hOpening
  obtain ⟨hClosingKind, hClosingMark, -⟩ := Label.mk.inj hClosing
  have hOpeningWell : opening.WellFormed text := h.of_core (by simp [hCore])
  have hClosingWell : closing.WellFormed text := h.of_core (by simp [hCore])
  obtain ⟨hStart, hStop⟩ := h.follows.covers hKind
  have hStart : opening.span.start = n.span.start := by simpa [hCore] using hStart
  have hStop : closing.span.stop = n.span.stop := by
    rw [hCore, List.getLast?_concat] at hStop
    exact Option.some.inj hStop
  have hOpen : opening.span.slice? text = some "\x7b" := by
    rw [hOpeningWell.slice?, hOpeningWell.text_of_mark hOpeningMark, hOpeningKind]
  have hClose : closing.span.slice? text = some "\x7d" := by
    rw [hClosingWell.slice?, hClosingWell.text_of_mark hClosingMark, hClosingKind]
  have hBefore : opening.span.Before closing.span :=
    h.before_of_core _ _ hCore (by simp) (by simp)
  have hSpan : n.span = ⟨opening.span.start, closing.span.stop⟩ := by rw [hStart, hStop]
  refine ⟨hSpan ▸ Span.braced_of_slices hOpen hClose hBefore.2, fun c hc => ?_⟩
  obtain ⟨hInner, -⟩ : c ∈ inner ∧ c.isNamed = true := by
    rw [namedChildren_eq, hCore] at hc
    simpa [List.filter_append, hOpeningMark, hClosingMark] using hc
  have hOpened : opening.span.stop = n.span.start + 1 := hStart ▸ Span.stop_of_slice? hOpen
  have hClosed : n.span.stop = closing.span.start + 1 := hStop ▸ Span.stop_of_slice? hClose
  have hBehind : opening.span.Before c.span :=
    h.before_of_core [opening] (inner ++ [closing]) (by simp [hCore])
      List.mem_cons_self (by simp [hInner])
  have hAhead : c.span.Before closing.span :=
    h.before_of_core _ _ hCore (by simp [hInner]) List.mem_cons_self
  exact ⟨hOpened ▸ hBehind.2, by rw [hClosed]; exact hAhead.2⟩

end WellFormed

end Node

end SolNorm.Tree
