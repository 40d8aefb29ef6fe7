import SolNorm.Proofs.Construction.Substitution

/-!
Arguments that are given by name. A block of named arguments is a single entry of an argument list,
however many names are in it, and it is taken for the value of a single parameter. So a base whose
constructor does not have exactly one parameter refuses every such block. A base that has one passes
the block on where its parameter is mentioned, with the braces and the name.
-/

namespace SolNorm

/-- What is cut out from an opening brace on starts with it. -/
theorem Span.Braced.exists_slice_eq {s : Span} {text : String} (h : s.Braced text) {stop : Nat}
    (hFits : Span.FitsIn ⟨s.start, stop⟩ text) (hLt : s.start < stop) :
    ∃ rest, (Span.slice ⟨s.start, stop⟩ text).toList = '{' :: rest := by
  obtain ⟨before, inner, after, hText, hStart, _⟩ := h
  have hSlice := slice?_eq_some_iff.mp (slice?_of_fitsIn hFits)
  generalize (Span.slice ⟨s.start, stop⟩ text).toList = cut at hSlice ⊢
  obtain ⟨front, rest, hAgain, hFront, hStop⟩ := Text.slice?_eq_some_iff.mp hSlice
  -- The text is cut at one place in both cases.
  have hSplit := Text.splitAt?_append front (cut ++ rest)
  rw [← List.append_assoc, ← hAgain, ← hFront, hStart, hText, List.append_assoc,
    Text.splitAt?_append, Option.some.injEq, Prod.mk.injEq] at hSplit
  cases cut with
  | nil =>
      rw [List.append_nil, ← hFront] at hStop
      exact absurd hStop hLt.ne'
  | cons c cut =>
      rw [List.cons_append, List.cons_append, List.cons.injEq] at hSplit
      exact ⟨cut, by rw [hSplit.2.1]⟩

namespace Construction

open Outline

/-- A value for a single name. -/
def only (name value : String) (n : String) : Option String := if n = name then some value else none

/-- Of two values for a name, the longer one adds to the length wherever the name is mentioned. -/
theorem length_foldl_renderStep (text name : String) {long short : String}
    (hLt : short.length < long.length) (idents : List Ident) (offset : Nat) {more less : String}
    {gap : Nat} (h : less.length + gap ≤ more.length) :
    let longer := idents.foldl (renderStep text (only name long)) (more, offset)
    let shorter := idents.foldl (renderStep text (only name short)) (less, offset)
    longer.2 = shorter.2 ∧
      shorter.1.length + gap + idents.countP (fun x => x.name == name) ≤ longer.1.length := by
  induction idents generalizing more less gap offset with
  | nil => exact ⟨rfl, h⟩
  | cons x rest ih =>
      simp only [List.foldl_cons, List.countP_cons]
      by_cases hName : x.name = name
      · have hPut (done : String × Nat) (value : String) : renderStep text (only name value) done x =
            (done.1 ++ Span.slice ⟨done.2, x.span.start⟩ text ++ value, x.span.stop) := by
          rw [renderStep, only, if_pos hName]
        simp only [hPut]
        have hWider : (less ++ Span.slice ⟨offset, x.span.start⟩ text ++ short).length + (gap + 1) ≤
            (more ++ Span.slice ⟨offset, x.span.start⟩ text ++ long).length := by
          simp only [String.length_append]
          omega
        obtain ⟨hSame, hLength⟩ := ih x.span.stop hWider
        refine ⟨hSame, ?_⟩
        simp only [hName, beq_self_eq_true, if_true]
        omega
      · have hKept (done : String × Nat) (value : String) :
            renderStep text (only name value) done x = done := by
          rw [renderStep, only, if_neg hName]
        simp only [hKept]
        simpa [hName] using ih offset h

/-- Two values of different length can stand for a name alike only where it is not mentioned. -/
theorem render_only_eq_iff {text name long short : String} (hLt : short.length < long.length)
    (e : Expr) : e.render text (only name long) = e.render text (only name short) ↔
      ∀ x ∈ e.idents, x.name ≠ name := by
  constructor
  · intro hSame x hx hName
    have hStart : "".length + 0 ≤ "".length := le_rfl
    obtain ⟨hOffset, hLength⟩ := length_foldl_renderStep text name hLt e.idents e.span.start hStart
    have hCount : 0 < e.idents.countP fun x => x.name == name :=
      List.countP_pos_iff.mpr ⟨x, hx, by simp [hName]⟩
    have hLengths := congrArg String.length hSame
    rw [render_eq_withRest, render_eq_withRest, withRest, withRest, hOffset, String.length_append,
      String.length_append] at hLengths
    omega
  · intro hNone
    have hFree (value : String) : ∀ x ∈ e.idents, only name value x.name = none :=
      fun x hx => if_neg (hNone x hx)
    rw [render_of_none _ _ (hFree long), render_of_none _ _ (hFree short)]

/-- The pieces of a region that goes on behind its last name. -/
theorem spelled_phraseFrom_append {text : String} (b : Binding) (phrases : String → Option Phrase)
    {stop far : Nat} (hFar : Span.FitsIn ⟨stop, far⟩ text) {offset : Nat}
    (hOffset : Span.FitsIn ⟨offset, stop⟩ text) {idents : List Ident}
    (hIdents : Ascending Ident.span (fun x => x.span.slice? text = some x.name) offset stop idents) :
    ((b.phraseFrom text far offset idents).substitute phrases).spelled =
      ((b.phraseFrom text stop offset idents).substitute phrases).spelled ++
        Span.slice ⟨stop, far⟩ text := by
  induction idents generalizing offset with
  | nil =>
      simp [Binding.phraseFrom, Phrase.substitute, Piece.spelled, Span.slice_append hOffset hFar]
  | cons x rest ih =>
      obtain ⟨hSpelled, _, hIn⟩ := hIdents.each x List.mem_cons_self
      have hFits := Span.fitsIn_of_slice? hSpelled
      have hNext := ih ⟨hIn.2, hFits.2.2, hOffset.2.2⟩ hIdents.tail
      simp only [Phrase.substitute] at hNext
      simp [Binding.phraseFrom, Phrase.substitute, hNext, String.append_assoc]

/-- Names inside a part of an expression are replaced there, and what is around the part is kept. -/
theorem render_around {text : String} (values : String → Option String) {inner : Expr}
    (hInner : inner.Placed text) {kind : ExprKind} {outer : Span}
    (hFront : Span.FitsIn ⟨outer.start, inner.span.start⟩ text)
    (hBack : Span.FitsIn ⟨inner.span.stop, outer.stop⟩ text) :
    (⟨kind, outer, inner.idents⟩ : Expr).render text values =
      Span.slice ⟨outer.start, inner.span.start⟩ text ++ inner.render text values ++
        Span.slice ⟨inner.span.stop, outer.stop⟩ text := by
  let phrases (name : String) : Option Phrase := (values name).map fun value => [.copied value]
  have hValues (name : String) : values name = (phrases name).map Phrase.spelled := by
    simp [phrases, Piece.spelled, Function.comp_def]
  have hWide := hInner.idents.widen le_rfl hBack.1
  rw [render_eq_spelled default hValues hInner, render_eq_withRest,
    withRest_foldl (b := default) hValues hBack.2.2 hFront (hInner.fits.1.trans hBack.1) hWide,
    spelled_phraseFrom_append default phrases hBack hInner.fits hInner.idents, String.empty_append,
    ← String.append_assoc]
  rfl

/-- The values that a block of named arguments gives. -/
def fieldsOf (block : Tree.Node) : List Tree.Node :=
  block.children.filter fun c => c.kind == "call_struct_argument"

/-- The name by which a value is given. -/
def keyOf? (text : String) (field : Tree.Node) : Option String :=
  (field.childByField? "name").map fun n => n.text text

/-- Whether the colon stands right after the name. -/
def isKeyed (field : Tree.Node) : Bool :=
  match field.children with
  | key :: colon :: _ => key.kind == "identifier" && colon.kind == ":"
  | _ => false

/-- An entry of an argument list in which values in braces are given by name. -/
structure IsBlock (text : String) (block : Tree.Node) : Prop where
  tree : block.WellFormed text
  kind : block.kind = "call_argument"
  opens : (block.children.any fun c => c.kind == "\x7b") = true
  keyed : ∀ f ∈ fieldsOf block, isKeyed f = true

/-- The text of a block with a single name, in which the value is replaced. -/
def wholeBlock (text : String) (span inner : Span) (value : String) : String :=
  Span.slice ⟨span.start, inner.start⟩ text ++ value ++ Span.slice ⟨inner.stop, span.stop⟩ text

section Blocks

open Tree.Production

variable {text : String} {block field value : Tree.Node}

/-- The names in a list of nodes, one node after another. -/
theorem idents_findsOfAll (text : String) (list : List Tree.Node) :
    (findsOfAll text list).idents = list.flatMap fun n => (findsOf text n).idents := by
  induction list with
  | nil => rfl
  | cons n rest ih =>
      rw [List.flatMap_cons, ← ih]
      rfl

/-- Nothing is found in a mark or a comment. -/
theorem findsOf_eq_none {n : Tree.Node} (hKind : n.kind ∈ ["\x7b", "\x7d", ",", ":", "comment"])
    (hNil : n.children = []) : findsOf text n = .none := by
  have hKinds : ∀ kind ∈ ["\x7b", "\x7d", ",", ":", "comment"], kind ≠ "identifier" ∧
      kind ≠ "variable_declaration" ∧ kind ≠ "call_expression" ∧ kind ≠ "member_expression" ∧
      kind ≠ "emit_statement" := by decide
  obtain ⟨hName, hVariable, hCall, hMember, hEmit⟩ := hKinds _ hKind
  have hEnd : n.further = [] := by
    have hSub := Tree.Node.further_sublist hMember hEmit
    rwa [hNil, List.sublist_nil] at hSub
  have hHere : findsAt text n = .none := by
    unfold findsAt
    split
    · contradiction
    · contradiction
    · contradiction
    · rfl
  rw [findsOf_eq, hHere, hEnd]
  rfl

/-- A list without names has no keys. -/
theorem withoutKeys_eq_self {list : List Tree.Node} (h : ∀ n ∈ list, n.kind ≠ "identifier") :
    Tree.Node.withoutKeys list = list := by
  fun_induction Tree.Node.withoutKeys list with
  | case1 c next rest hKey _ =>
      simp only [Bool.and_eq_true, beq_iff_eq] at hKey
      exact absurd hKey.1 (h c List.mem_cons_self)
  | case2 c next rest _ ih => rw [ih (List.forall_mem_cons.mp h).2]
  | case3 => rfl

/-- The walk passes over keys in arguments. -/
theorem findsOf_argument {n : Tree.Node}
    (hKind : n.kind = "call_argument" ∨ n.kind = "call_struct_argument") :
    findsOf text n = findsOfAll text (Tree.Node.withoutKeys n.children) := by
  have hKeyed : n.isKeyed = true := by
    have hMentions : n.kindMentions "argument" = true := by
      unfold Tree.Node.kindMentions
      rcases hKind with hKind | hKind <;> rw [hKind] <;> decide
    simp [Tree.Node.isKeyed, hMentions]
  rw [findsOf_eq]
  rcases hKind with hKind | hKind <;> simp only [findsAt, Tree.Node.further, hKind, hKeyed] <;> rfl

/-- If nothing is found in most nodes of a list, all names are found in the others. -/
theorem idents_of_filter {list : List Tree.Node} {keep : Tree.Node → Bool} {n : Tree.Node}
    (hKept : list.filter keep = [n])
    (hOthers : ∀ c ∈ list, keep c = false → findsOf text c = .none) :
    (findsOfAll text list).idents = (findsOf text n).idents := by
  rw [idents_findsOfAll]
  have hSame : (list.flatMap fun c => (findsOf text c).idents) =
      (list.filter keep).flatMap fun c => (findsOf text c).idents := by
    clear hKept
    induction list with
    | nil => rfl
    | cons c rest ih =>
        obtain ⟨hc, hRest⟩ := List.forall_mem_cons.mp hOthers
        rw [List.flatMap_cons, ih hRest]
        cases hKeep : keep c with
        | true => rw [List.filter_cons_of_pos hKeep, List.flatMap_cons]
        | false =>
            rw [List.filter_cons_of_neg (by simp [hKeep]), hc hKeep]
            rfl
  rw [hSame, hKept, List.flatMap_singleton]

theorem children_eq_nil {n c : Tree.Node} (h : n.WellFormed text) (hc : c ∈ n.children)
    (hKind : c.kind = "comment" ∨ c.isNamed = false) : c.children = [] :=
  hKind.elim (fun hComment => ((h.child hc).follows.comment hComment).1)
    fun hMark => ((h.child hc).follows.mark hMark).1

namespace IsBlock

/-- What stands in a block besides comments. -/
theorem matches_core (h : IsBlock text block) :
    (mark "\x7b" * listed (rule "call_struct_argument") (mark ",") * mark "\x7d").Matches
      block.core := by
  have hMatches := h.tree.matches_core (by rw [h.kind]; rfl)
  refine (matches_add_iff.mp hMatches).resolve_left fun hExpression => ?_
  obtain ⟨value, hCore, hLabel⟩ := matches_char_iff.mp hExpression
  obtain ⟨opening, hMem, hOpening⟩ := List.any_eq_true.mp h.opens
  have hOpening : opening.kind = "\x7b" := beq_iff_eq.mp hOpening
  have hOnly := Tree.Node.mem_core_of_kind hMem hOpening (by decide)
  rw [hCore, List.mem_singleton] at hOnly
  simp [hOnly, Tree.Label.mk.inj hLabel] at hOpening

/-- A child of a block is a named value, a mark or a comment. -/
theorem child_cases (h : IsBlock text block) {c : Tree.Node} (hc : c ∈ block.children) :
    c.label = ⟨"call_struct_argument", true, none⟩ ∨ c.kind = "comment" ∨
      c.kind ∈ ["\x7b", "\x7d", ","] ∧ c.isNamed = false := by
  by_cases hComment : c.kind = "comment"
  · exact .inr (.inl hComment)
  · have hLabels : ∀ l ∈ (mark "\x7b" * listed (rule "call_struct_argument") (mark ",") *
        mark "\x7d").labels, l = ⟨"call_struct_argument", true, none⟩ ∨
          l.kind ∈ ["\x7b", "\x7d", ","] ∧ l.isNamed = false := by decide
    have hCore := Tree.Node.mem_core_iff.mpr ⟨hc, hComment⟩
    exact (hLabels _ (h.matches_core.label_mem c hCore)).imp_right .inr

/-- The fields of a block are those children that give a value to a name. -/
theorem field_label (h : IsBlock text block) (hField : field ∈ fieldsOf block) :
    field ∈ block.children ∧ field.label = ⟨"call_struct_argument", true, none⟩ := by
  obtain ⟨hMem, hKind⟩ := List.mem_filter.mp hField
  refine ⟨hMem, (h.child_cases hMem).resolve_right ?_⟩
  rw [beq_iff_eq] at hKind
  simp [hKind]

/-- A named value is a name, a colon and a value. Only behind the name may there be comments. -/
theorem exists_value (h : IsBlock text block) (hField : field ∈ fieldsOf block) :
    ∃ key rest colon value, field.children = key :: rest ∧
      rest.filter (fun c => !c.isComment) = [colon, value] ∧
      colon.label = ⟨":", false, none⟩ ∧ value.label = ⟨"expression", true, some "value"⟩ ∧
      field.childByField? "name" = some key ∧ field.childByField? "value" = some value ∧
      Tree.Node.withoutKeys (key :: rest) = Tree.Node.withoutKeys rest := by
  obtain ⟨hMem, hLabel⟩ := h.field_label hField
  have hKind : field.kind = "call_struct_argument" := congrArg Tree.Label.kind hLabel
  have hTree := h.tree.child hMem
  obtain ⟨front, _, hCore, hFront, hValue⟩ :=
    matches_mul_iff.mp (hTree.matches_core (by rw [hKind]; rfl))
  obtain ⟨_, _, rfl, hKey, hColon⟩ := matches_mul_iff.mp hFront
  obtain ⟨key, rfl, hKeyLabel⟩ := matches_char_iff.mp hKey
  obtain ⟨colon, rfl, hColonLabel⟩ := matches_char_iff.mp hColon
  obtain ⟨value, rfl, hValueLabel⟩ := matches_char_iff.mp hValue
  have hName : field.childByField? "name" = some key := by
    rw [hTree.childByField?_eq, hCore]
    simp [Tree.Label.mk.inj hKeyLabel]
  have hFound : field.childByField? "value" = some value := by
    rw [hTree.childByField?_eq, hCore]
    simp [Tree.Label.mk.inj hKeyLabel, Tree.Label.mk.inj hColonLabel, Tree.Label.mk.inj hValueLabel]
  have hKeyed := h.keyed field hField
  unfold isKeyed at hKeyed
  split at hKeyed
  · rename_i first second rest hChildren
    simp only [Bool.and_eq_true, beq_iff_eq] at hKeyed
    simp only [Tree.Node.core, Tree.Node.isComment, hChildren] at hCore
    rw [List.filter_cons_of_pos (by simp [hKeyed.1])] at hCore
    obtain ⟨rfl, hRest⟩ := List.cons.inj hCore
    exact ⟨first, second :: rest, colon, value, hChildren, hRest, hColonLabel, hValueLabel, hName,
      hFound, by simp [Tree.Node.withoutKeys, hKeyed]⟩
  · cases hKeyed

/-- The key of a named value is not a name that it mentions. -/
theorem idents_field (h : IsBlock text block) (hField : field ∈ fieldsOf block)
    (hValue : field.childByField? "value" = some value) :
    (findsOf text field).idents = (findsOf text value).idents := by
  obtain ⟨hMem, hLabel⟩ := h.field_label hField
  obtain ⟨key, rest, colon, value', hChildren, hRest, hColon, hExpression, -, hFound, hKeys⟩ :=
    h.exists_value hField
  obtain rfl : value = value' := Option.some.inj (hValue.symm.trans hFound)
  have hKinds (c : Tree.Node) (hc : c ∈ rest) : c.kind = "comment" ∨ c = colon ∨ c = value := by
    by_cases hComment : c.kind = "comment"
    · exact .inl hComment
    · have hMem : c ∈ rest.filter fun c => !c.isComment :=
        List.mem_filter.mpr ⟨hc, by simp [Tree.Node.isComment, hComment]⟩
      rw [hRest] at hMem
      exact .inr (by simpa using hMem)
  have hKept : rest.filter (fun c => c.kind == "expression") = [value] := by
    have hTwice : rest.filter (fun c => c.kind == "expression") =
        (rest.filter fun c => !c.isComment).filter fun c => c.kind == "expression" := by
      rw [List.filter_filter]
      refine List.filter_congr fun c _ => ?_
      by_cases hKind : c.kind = "expression" <;> simp [Tree.Node.isComment, hKind]
    rw [hTwice, hRest]
    simp [Tree.Label.mk.inj hColon, Tree.Label.mk.inj hExpression]
  rw [findsOf_argument (.inr (congrArg Tree.Label.kind hLabel)), hChildren, hKeys,
    withoutKeys_eq_self fun c hc => ?_]
  · refine idents_of_filter hKept fun c hc hOther => ?_
    have hChild : c ∈ field.children := by simp [hChildren, hc]
    have hNil := children_eq_nil (h.tree.child hMem) hChild
    rcases hKinds c hc with hComment | rfl | rfl
    · exact findsOf_eq_none (by simp [hComment]) (hNil (.inl hComment))
    · obtain ⟨hKind, hMark, -⟩ := Tree.Label.mk.inj hColon
      exact findsOf_eq_none (by simp [hKind]) (hNil (.inr hMark))
    · simp [Tree.Label.mk.inj hExpression] at hOther
  · rcases hKinds c hc with hComment | rfl | rfl
    · simp [hComment]
    · simp [Tree.Label.mk.inj hColon]
    · simp [Tree.Label.mk.inj hExpression]

/-- A block stands for itself. -/
theorem argumentValue_eq (h : IsBlock text block) : block.argumentValue = block := by
  rw [Tree.Node.argumentValue, h.opens]
  simp

/-- What a block with a single value mentions is mentioned by the value. -/
theorem idents_block (h : IsBlock text block) (hOnly : fieldsOf block = [field])
    (hValue : field.childByField? "value" = some value) :
    (argumentOf text block).idents = (exprOf text value).idents := by
  show (findsOf text block.argumentValue).idents = (findsOf text value).idents
  rw [h.argumentValue_eq, ← h.idents_field (by simp [hOnly]) hValue, findsOf_argument (.inl h.kind),
    withoutKeys_eq_self fun c hc => ?_]
  · refine idents_of_filter hOnly fun c hc hOther => ?_
    have hNil := children_eq_nil h.tree hc
    rcases h.child_cases hc with hLabel | hComment | ⟨hKind, hMark⟩
    · simp [Tree.Label.mk.inj hLabel] at hOther
    · exact findsOf_eq_none (by simp [hComment]) (hNil (.inl hComment))
    · exact findsOf_eq_none (List.mem_append_left [":", "comment"] hKind) (hNil (.inr hMark))
  · rcases h.child_cases hc with hLabel | hComment | ⟨hKind, _⟩
    · simp [Tree.Label.mk.inj hLabel]
    · simp [hComment]
    · intro hName
      simp [hName] at hKind

/-- The braces of a block, and where a value lies between them. -/
theorem between (h : IsBlock text block) (hField : field ∈ fieldsOf block)
    (hValue : field.childByField? "value" = some value) :
    block.span.Braced text ∧ value.WellFormed text ∧
      value.span.Between (block.span.start + 1) (block.span.stop - 1) := by
  obtain ⟨hMem, hLabel⟩ := h.field_label hField
  obtain ⟨hBraced, hInner⟩ := h.tree.braced h.matches_core (by rw [h.kind]; rfl)
  have hNamed : field ∈ block.namedChildren :=
    List.mem_filter.mpr ⟨hMem, by simp [Tree.Node.isComment, Tree.Label.mk.inj hLabel]⟩
  have hValueMem := (Tree.Node.mem_of_childByField? hValue).1
  have hTree := h.tree.child hMem
  have hIn := hInner field hNamed
  exact ⟨hBraced, hTree.child hValueMem, (hTree.laidOut.inside value hValueMem).widen hIn.1 hIn.2⟩

/-- A single value lies inside the block, behind its name. -/
theorem fitsIn (h : IsBlock text block) (hField : field ∈ fieldsOf block)
    (hValue : field.childByField? "value" = some value) :
    (Span.FitsIn ⟨block.span.start, value.span.start⟩ text ∧ block.span.start < value.span.start) ∧
      Span.FitsIn ⟨value.span.stop, block.span.stop⟩ text := by
  obtain ⟨_, hTree, hIn⟩ := h.between hField hValue
  have hFits := hTree.laidOut.fits
  have hBlock := h.tree.laidOut.fits
  exact ⟨⟨⟨Nat.le_of_lt hIn.1, hBlock.2.1, hFits.2.1⟩, hIn.1⟩, hIn.2.trans (Nat.sub_le _ _), hFits.2.2,
    hBlock.2.2⟩

/-- A block with a single value is rendered by rendering the value. -/
theorem render_eq (h : IsBlock text block) (hOnly : fieldsOf block = [field])
    (hValue : field.childByField? "value" = some value) (values : String → Option String) :
    (argumentOf text block).render text values =
      wholeBlock text block.span value.span ((exprOf text value).render text values) := by
  have hField : field ∈ fieldsOf block := by simp [hOnly]
  obtain ⟨⟨hFront, _⟩, hBack⟩ := h.fitsIn hField hValue
  have hTree := (h.between hField hValue).2.1
  have hEntry : argumentOf text block =
      ⟨(argumentOf text block).kind, block.span, (exprOf text value).idents⟩ := by
    rw [← h.idents_block hOnly hValue, argumentOf, h.argumentValue_eq]
    rfl
  rw [hEntry, wholeBlock]
  exact render_around values (exprOf_placed hTree (findsOf_within hTree)) hFront hBack

end IsBlock

end Blocks

section

variable {text : String} {span : Span}

/-- A block is no single word or string, and it is longer than the value in it. -/
theorem parenthesize_wholeBlock (hBraced : span.Braced text) {inner : Span}
    (hFits : Span.FitsIn ⟨span.start, inner.start⟩ text) (hLt : span.start < inner.start)
    (value : String) :
    let whole := wholeBlock text span inner value
    parenthesize whole = "(" ++ whole ++ ")" ∧ value.length < whole.length := by
  intro whole
  obtain ⟨rest, hOpen⟩ := hBraced.exists_slice_eq hFits hLt
  obtain ⟨back, hWhole⟩ : ∃ back, whole.toList = '{' :: back := by
    simp only [whole, wholeBlock, String.toList_append, hOpen, List.cons_append]
    exact ⟨_, rfl⟩
  constructor
  · rw [parenthesize_eq, if_neg]
    rintro (hWord | hQuoted)
    · have hBrace := hWord '{' (hWhole ▸ List.mem_cons_self)
      simp at hBrace
    · rw [hWhole] at hQuoted
      simp [isQuoted] at hQuoted
  · have hPos : 0 < (Span.slice ⟨span.start, inner.start⟩ text).length := by
      rw [← String.length_toList, hOpen]
      exact Nat.succ_pos _
    simp only [whole, wholeBlock, String.length_append]
    omega

end

theorem length_parenthesize_le (value : String) :
    (parenthesize value).length ≤ ("(" ++ value ++ ")").length := by
  rw [parenthesize_eq]
  split
  · simp only [String.length_append]
    omega
  · exact le_rfl

/-- The places where the contracts of a chain can give arguments. -/
def placesOf (chain : List Contract) : List (Contract × Invocation × Bool) :=
  chain.flatMap fun supplier => (sites supplier).map fun site => (supplier, site)

/-- The arguments at a place are refused, and so there is no plan. The error is the one that is
reported if nothing is wrong at the places before it. -/
structure Refuses (i : Index) (contract : Contract) (isInitialized : Contract → Bool)
    (chain : List Contract) (place : Contract × Invocation × Bool) (e : Error) : Prop where
  refused : bindingAt contract chain place.1 place.2 = .error e
  unplanned : ∀ p, plan i contract isInitialized ≠ .ok p
  reported : ∀ before after known, placesOf chain = before ++ place :: after →
    before.foldlM (bindAt contract chain) [] = .ok known → plan i contract isInitialized = .error e

/-- One place at which arguments are refused is enough to refuse the contract. -/
theorem refuses_of_bindingAt {i : Index} {contract : Contract} {chain : List Contract}
    (hOrder : i.linearize contract.name = .ok chain) (isInitialized : Contract → Bool)
    {place : Contract × Invocation × Bool} (hPlace : place ∈ placesOf chain) {e : Error}
    (h : bindingAt contract chain place.1 place.2 = .error e) :
    Refuses i contract isInitialized chain place e := by
  have hReported (before after known) (hPlaces : placesOf chain = before ++ place :: after)
      (hBefore : before.foldlM (bindAt contract chain) [] = .ok known) :
      plan i contract isInitialized = .error e := by
    have hHere : bindAt contract chain known place = .error e := by
      rw [bindAt, h]
      rfl
    have hAll : bindingsOf contract chain = .error e := by
      show (placesOf chain).foldlM (bindAt contract chain) [] = .error e
      rw [hPlaces, List.foldlM_append, hBefore]
      show (place :: after).foldlM (bindAt contract chain) known = .error e
      rw [List.foldlM_cons, hHere]
      rfl
    rw [plan, hOrder]
    show (bindingsOf contract chain >>= _) = .error e
    rw [hAll]
    rfl
  refine ⟨h, fun p hPlan => ?_, hReported⟩
  obtain ⟨before, after, hPlaces⟩ := List.append_of_mem hPlace
  obtain ⟨bases, derived, bindings, hPlanned⟩ := isPlanned_of_plan hPlan
  obtain rfl : chain = bases ++ [derived] := Except.ok.inj (hOrder.symm.trans hPlanned.order)
  have hGiven : (placesOf (bases ++ [derived])).foldlM (bindAt contract (bases ++ [derived])) [] =
      .ok bindings := hPlanned.given
  rw [hPlaces, List.foldlM_append] at hGiven
  obtain ⟨known, hBefore, _⟩ := Outcome.bind_eq_ok_iff.mp hGiven
  rw [hReported before after known hPlaces hBefore] at hPlan
  cases hPlan

/-- At a place in a chain, each parameter of a base's constructor is given a value by name, in whatever
order. -/
structure GivesByName (i : Index) (contract : Contract) (chain : List Contract)
    (place : Contract × Invocation × Bool) (base : Contract) (block : Tree.Node) : Prop where
  order : i.linearize contract.name = .ok chain
  written : place ∈ placesOf chain
  inherited : base ∈ chain.dropLast
  goal : lastSegment place.2.1.name = base.name
  arguments : place.2.1.arguments = some [argumentOf i.text block]
  isBlock : IsBlock i.text block
  each : ((fieldsOf block).map (keyOf? i.text)).Perm ((parametersOf base).map Variable.name)

namespace GivesByName

variable {i : Index} {contract : Contract} {chain : List Contract}
  {place : Contract × Invocation × Bool} {base : Contract} {block : Tree.Node}

/-- A block that gives by name has as many fields as the base has parameters. -/
theorem length_eq (h : GivesByName i contract chain place base block) :
    (fieldsOf block).length = (parametersOf base).length := by
  simpa using h.each.length_eq

theorem mem_chain (h : GivesByName i contract chain place base block) : base ∈ chain :=
  List.dropLast_subset _ h.inherited

/-- The base is the one that the place is for. -/
theorem find? (h : GivesByName i contract chain place base block) :
    chain.find? (fun c => c.name == lastSegment place.2.1.name) = some base := by
  rw [h.goal]
  exact (find?_name_eq_some_iff (Index.nodup_of_linearize h.order)).mpr ⟨h.mem_chain, rfl⟩

/-- A block of names counts as one argument. -/
theorem bindingAt_eq (h : GivesByName i contract chain place base block) :
    bindingAt contract chain place.1 place.2 =
      match (parametersOf base)[1]? with
      | some second =>
        .error (.missingArgument contract.name base.name (second.name.getD s!"#{1}"))
      | none =>
        if (parametersOf base).length < 1 then
          .error (.surplusArguments place.1.name base.name (parametersOf base).length 1)
        else .ok (some ⟨base.name, place.1, [argumentOf i.text block], place.2.2⟩) := by
  rw [bindingAt, h.arguments, h.find?]
  rfl

end GivesByName

/-- What the constructors of a chain are given. -/
def givenTo (i : Index) (contract : Contract) (isInitialized : Contract → Bool)
    (chain : List Contract) (bindings : List Binding) : Contract → List String :=
  supplied (suppliesOf i.text contract chain bindings
    (exposedParameters i.text contract chain.dropLast bindings isInitialized))

/-- The value of a name at a place. Only in the header of a constructor are there parameters, and they
have values if the contract comes behind the one that arguments are for. -/
def valueAt? (given : Contract → List String) (behind : List Contract)
    (place : Contract × Invocation × Bool) (name : String) : Option String :=
  if place.2.2 = true ∧ place.1 ∈ behind then
    (lastFor? (parametersOf place.1) (given place.1) name).map parenthesize
  else none

/-- A base whose only parameter is given by name takes the whole block for its value. -/
structure PassesWhole (i : Index) (chain : List Contract) (isInitialized : Contract → Bool)
    (base : Contract) (name whole argument : String) (report : Report)
    (given : Contract → List String) : Prop where
  called : report.initializers = (constructorsOf (chain.dropLast.filter isInitialized)).map
    fun x => (⟨x.1, x.2, given x.1⟩ : Initialization).text
  taken : given base = [whole]
  /-- In the arguments for a further base the block stands where the parameter was mentioned. They are
  those with the value in its place only if the parameter is not mentioned at all. -/
  passed : ∀ {further : Contract} {front back : List Contract} {b : Binding},
    chain = front ++ further :: back → base ∈ back → b.IsGiven chain → b.base = further.name →
    b.supplier = base → b.inConstructor = true →
    given further = b.arguments.map (fun e => e.render i.text (only name ("(" ++ whole ++ ")"))) ∧
      (given further = b.arguments.map
          (fun e => e.render i.text (only name (parenthesize argument))) ↔
        ∀ e ∈ b.arguments, ∀ x ∈ e.idents, x.name ≠ name)

/-- What becomes of arguments that are given by name. -/
inductive Taken (i : Index) (contract : Contract) (isInitialized : Contract → Bool)
    (chain : List Contract) (place : Contract × Invocation × Bool) (base : Contract)
    (block : Tree.Node) : Prop where
  /-- An empty block is one argument too many. -/
  | surplus (empty : fieldsOf block = [])
      (refused : Refuses i contract isInitialized chain place
        (.surplusArguments place.1.name base.name 0 1))
  /-- With several names in it, the second parameter is missing. -/
  | missing {parameter : Variable} {name : String} (several : 1 < (fieldsOf block).length)
      (found : (parametersOf base)[1]? = some parameter) (named : parameter.name = some name)
      (refused : Refuses i contract isInitialized chain place
        (.missingArgument contract.name base.name name))
  | whole {field value : Tree.Node} {name : String} (only : fieldsOf block = [field])
      (key : keyOf? i.text field = some name) (given : field.childByField? "value" = some value)
      (accepted : bindingAt contract chain place.1 place.2 = .ok (some ⟨base.name, place.1,
        [argumentOf i.text block], place.2.2⟩))
      (passed : ∀ p, plan i contract isInitialized = .ok p → ∃ bindings before after,
        bindingsOf contract chain = .ok bindings ∧ chain = before ++ base :: after ∧
        let given := givenTo i contract isInitialized chain bindings
        let argument := (exprOf i.text value).render i.text (valueAt? given after place)
        PassesWhole i chain isInitialized base name
          (wholeBlock i.text block.span value.span argument) argument p.report given)

theorem lastFor?_singleton {α : Type} (v : Variable) (value : α) (name : String) :
    lastFor? [v] [value] name = if v.name = some name then some value else none := by
  by_cases hName : v.name = some name <;> simp [lastFor?, hName]

namespace GivesByName

variable {i : Index} {contract : Contract} {chain : List Contract}
  {place : Contract × Invocation × Bool} {base : Contract} {block field value : Tree.Node}

/-- The base is given the block, in which the names have their values. -/
theorem givenTo_eq (h : GivesByName i contract chain place base block)
    (hOnly : fieldsOf block = [field]) (hValue : field.childByField? "value" = some value)
    {isInitialized : Contract → Bool} {p : Plan} {bases : List Contract} {derived : Contract}
    {bindings : List Binding}
    (hPlanned : IsPlanned i contract isInitialized p bases derived bindings)
    (hChain : chain = bases ++ [derived]) {before after : List Contract}
    (hSplit : chain = before ++ base :: after) :
    let given := givenTo i contract isInitialized chain bindings
    given base = [wholeBlock i.text block.span value.span
      ((exprOf i.text value).render i.text (valueAt? given after place))] := by
  intro given
  subst hChain
  obtain ⟨supplier, hSupplier, hPlace⟩ := List.mem_flatMap.mp h.written
  obtain ⟨site, hSite, rfl⟩ := List.mem_map.mp hPlace
  have hBase : base ∈ bases := by simpa using h.inherited
  have hGiven : (⟨base.name, supplier, [argumentOf i.text block], site.2⟩ : Binding).IsGiven
      (bases ++ [derived]) :=
    ⟨hSupplier, ⟨base, h.mem_chain, rfl⟩, site, hSite, h.arguments, h.goal, rfl⟩
  have hSupplied := hPlanned.supplied_of_split hSplit hBase hGiven rfl
  have hSame : given = supplied (suppliesOf i.text contract (bases ++ [derived]) bindings
      (exposedParameters i.text contract bases bindings isInitialized)) := by
    simp only [given, givenTo, List.dropLast_concat]
  rw [← h.isBlock.render_eq hOnly hValue, hSame]
  exact hSupplied

/-- The parameter of the base stands for the block. -/
theorem lastFor?_whole (h : GivesByName i contract chain place base block)
    (hOnly : fieldsOf block = [field]) {name : String} (hKey : keyOf? i.text field = some name)
    (whole n : String) :
    (lastFor? (parametersOf base) [whole] n).map parenthesize =
      only name (parenthesize whole) n := by
  have hEach := h.each
  rw [hOnly, List.map_singleton, hKey] at hEach
  obtain ⟨v, hParameters, hName⟩ := List.map_eq_singleton_iff.mp (List.singleton_perm.mp hEach).symm
  rw [hParameters, lastFor?_singleton, hName, only]
  by_cases hSame : n = name
  · simp [hSame]
  · simp [hSame, Ne.symm hSame]

/-- A further base is given its arguments with the block in the place of the parameter. -/
theorem givenTo_further (h : GivesByName i contract chain place base block)
    (hOnly : fieldsOf block = [field]) {name : String} (hKey : keyOf? i.text field = some name)
    {isInitialized : Contract → Bool} {p : Plan} {bases : List Contract} {derived : Contract}
    {bindings : List Binding}
    (hPlanned : IsPlanned i contract isInitialized p bases derived bindings)
    (hChain : chain = bases ++ [derived]) {whole : String}
    (hTaken : givenTo i contract isInitialized chain bindings base = [whole])
    {further : Contract} {front back : List Contract} {b : Binding}
    (hSplit : chain = front ++ further :: back) (hBack : base ∈ back) (hGiven : b.IsGiven chain)
    (hFor : b.base = further.name) (hSupplier : b.supplier = base)
    (hHeader : b.inConstructor = true) :
    givenTo i contract isInitialized chain bindings further =
      b.arguments.map fun e => e.render i.text (only name (parenthesize whole)) := by
  subst hChain
  have hFurther : further ∈ bases := by
    have hLast : bases = front ++ further :: back.dropLast := by
      have hCut := congrArg List.dropLast hSplit
      rwa [List.dropLast_concat, List.dropLast_append_of_ne_nil (List.cons_ne_nil _ _),
        List.dropLast_cons_of_ne_nil (List.ne_nil_of_mem hBack)] at hCut
    rw [hLast]
    exact List.mem_append_right _ List.mem_cons_self
  have hSupplied := hPlanned.supplied_of_split hSplit hFurther hGiven hFor
  rw [givenTo, List.dropLast_concat] at hTaken ⊢
  rw [hSupplied]
  simp only [hHeader, hSupplier, hBack, and_true, if_true, hTaken, h.lastFor?_whole hOnly hKey]

/-- A plan passes the whole block on. -/
theorem passesWhole (h : GivesByName i contract chain place base block)
    (hOnly : fieldsOf block = [field]) {name : String} (hKey : keyOf? i.text field = some name)
    (hValue : field.childByField? "value" = some value) {isInitialized : Contract → Bool} {p : Plan}
    (hPlan : plan i contract isInitialized = .ok p) :
    ∃ bindings before after, bindingsOf contract chain = .ok bindings ∧
      chain = before ++ base :: after ∧
      let given := givenTo i contract isInitialized chain bindings
      let argument := (exprOf i.text value).render i.text (valueAt? given after place)
      PassesWhole i chain isInitialized base name
        (wholeBlock i.text block.span value.span argument) argument p.report given := by
  obtain ⟨bases, derived, bindings, hPlanned⟩ := isPlanned_of_plan hPlan
  obtain ⟨before, after, hSplit⟩ := List.append_of_mem h.mem_chain
  have hChain : chain = bases ++ [derived] := Except.ok.inj (h.order.symm.trans hPlanned.order)
  refine ⟨bindings, before, after, hChain ▸ hPlanned.given, hSplit, ?_⟩
  intro given argument
  have hTaken : given base = [wholeBlock i.text block.span value.span argument] :=
    h.givenTo_eq hOnly hValue hPlanned hChain hSplit
  have hField : field ∈ fieldsOf block := by simp [hOnly]
  obtain ⟨⟨hFront, hLt⟩, _⟩ := h.isBlock.fitsIn hField hValue
  obtain ⟨hGrouped, hLonger⟩ :=
    parenthesize_wholeBlock (h.isBlock.between hField hValue).1 hFront hLt argument
  refine ⟨?_, hTaken, ?_⟩
  · rw [hPlanned.initializers, List.map_map]
    simp only [given, givenTo, hChain, List.dropLast_concat]
    rfl
  · intro further front back b hFurther hBack hGiven hFor hSupplier hHeader
    have hPassed : given further = _ :=
      h.givenTo_further hOnly hKey hPlanned hChain hTaken hFurther hBack hGiven hFor hSupplier hHeader
    have hShorter : (parenthesize argument).length <
        (parenthesize (wholeBlock i.text block.span value.span argument)).length := by
      refine (length_parenthesize_le argument).trans_lt ?_
      rw [hGrouped]
      simp only [String.length_append]
      omega
    refine ⟨hGrouped ▸ hPassed, ?_⟩
    rw [hPassed, List.map_inj_left]
    exact forall₂_congr fun e _ => render_only_eq_iff hShorter e

end GivesByName

/-- Arguments do not bind by name. A block that gives each parameter of a constructor once is accepted
if there is one parameter and refused otherwise, and what is passed on for the parameter is the block
and not the value in it. -/
theorem taken_of_givesByName {i : Index} {contract : Contract} (isInitialized : Contract → Bool)
    {chain : List Contract} {place : Contract × Invocation × Bool} {base : Contract}
    {block : Tree.Node} (h : GivesByName i contract chain place base block) :
    ((∃ b, bindingAt contract chain place.1 place.2 = .ok b) ↔ (parametersOf base).length = 1) ∧
      Taken i contract isInitialized chain place base block := by
  have hAt := h.bindingAt_eq
  have hLength := h.length_eq
  match hParameters : parametersOf base with
  | [] =>
      rw [hParameters] at hAt hLength
      exact ⟨by simp [hAt], .surplus (List.eq_nil_of_length_eq_zero hLength)
        (refuses_of_bindingAt h.order isInitialized h.written hAt)⟩
  | [v] =>
      rw [hParameters] at hAt hLength
      obtain ⟨field, hOnly⟩ := List.length_eq_one_iff.mp hLength
      have hField : field ∈ fieldsOf block := by simp [hOnly]
      obtain ⟨key, _, _, value, _, _, _, _, hName, hValue, _⟩ := h.isBlock.exists_value hField
      have hKey : keyOf? i.text field = some (key.text i.text) := by rw [keyOf?, hName, Option.map_some]
      exact ⟨by simp [hAt], .whole hOnly hKey hValue hAt fun p => h.passesWhole hOnly hKey hValue⟩
  | v :: second :: rest =>
      rw [hParameters] at hAt hLength
      have hNamed : second.name.isSome := by
        have hMem : second.name ∈ (parametersOf base).map Variable.name := by simp [hParameters]
        obtain ⟨f, hf, hName⟩ := List.mem_map.mp (h.each.mem_iff.mpr hMem)
        obtain ⟨key, _, _, _, _, _, _, _, hKey, _⟩ := h.isBlock.exists_value hf
        rw [← hName, keyOf?, hKey]
        rfl
      obtain ⟨name, hName⟩ := Option.isSome_iff_exists.mp hNamed
      replace hAt : bindingAt contract chain place.1 place.2 =
          .error (.missingArgument contract.name base.name name) := by
        simpa [hName] using hAt
      exact ⟨by simp [hAt], .missing (by simp [hLength]) (by simp [hParameters]) hName
        (refuses_of_bindingAt h.order isInitialized h.written hAt)⟩

/-- Both parameters of `A` are given, the second one first. -/
def reordered : Index :=
  indexOf ("contract A \x7b constructor(uint x, uint y) \x7b\x7d \x7d " ++
    "contract B is A \x7b constructor() A(\x7by: 2, x: 1\x7d) \x7b\x7d \x7d")

/-- The parameter `y` is said to be missing, although it is given. -/
theorem reordered_refused : ∃ b chain place base block, reordered.contract? "B" = some b ∧
    GivesByName reordered b chain place base block ∧
    (fieldsOf block).map (keyOf? reordered.text) = [some "y", some "x"] ∧
    Refuses reordered b (fun _ => true) chain place (.missingArgument "B" "A" "y") := by
  have hFound : ∃ a b place block, reordered.contract? "B" = some b ∧ b.name = "B" ∧ a.name = "A" ∧
      (parametersOf a).map Variable.name = [some "x", some "y"] ∧
      (reordered.linearize b.name).map (fun chain => decide (chain = [a, b])) = .ok true ∧
      place ∈ placesOf [a, b] ∧ lastSegment place.2.1.name = a.name ∧
      place.2.1.arguments = some [argumentOf reordered.text block] ∧
      block.WellFormed reordered.text ∧ block.kind = "call_argument" ∧
      (block.children.any fun c => c.kind == "\x7b") = true ∧ (∀ f ∈ fieldsOf block, isKeyed f = true) ∧
      (fieldsOf block).map (keyOf? reordered.text) = [some "y", some "x"] := by
    refine ⟨(reordered.contract? "A").getD default, (reordered.contract? "B").getD default,
      (placesOf reordered.contracts).getLast?.getD default,
      ((Tree.read reordered.text).nodes.find? fun n => n.kind == "call_argument").getD default, ?_⟩
    decide +kernel
  obtain ⟨a, b, place, block, hB, hName, hBase, hParameters, hOrder, hPlace, hGoal, hArguments, hTree,
    hKind, hOpens, hKeyed, hKeys⟩ := hFound
  obtain ⟨chain, hOrder, hChain⟩ := Outcome.map_eq_ok_iff.mp hOrder
  rw [of_decide_eq_true hChain] at hOrder
  have hGives : GivesByName reordered b [a, b] place a block :=
    ⟨hOrder, hPlace, by simp, hGoal, hArguments, ⟨hTree, hKind, hOpens, hKeyed⟩, by
      rw [hParameters, hKeys]
      exact List.Perm.swap _ _ _⟩
  have hLength : (fieldsOf block).length = 2 := by simpa using congrArg List.length hKeys
  refine ⟨b, [a, b], place, a, block, hB, hGives, hKeys, ?_⟩
  cases (taken_of_givesByName (fun _ => true) hGives).2 with
  | surplus hEmpty => simp [hEmpty] at hLength
  | missing _ hSecond hNamed hRefused =>
      have hNames := congrArg (fun names => names[1]?) hParameters
      simp only [List.getElem?_map, hSecond, Option.map_some, hNamed] at hNames
      obtain rfl : _ = "y" := by simpa using hNames
      rwa [hName, hBase] at hRefused
  | whole hOnly => simp [hOnly] at hLength

/-- The parameter of `B` is given by name, and it is passed on to `A`. -/
def passedDown : Index :=
  indexOf ("contract A \x7b constructor(uint a) \x7b\x7d \x7d " ++
    "contract B is A \x7b constructor(uint x) A(x) \x7b\x7d \x7d " ++
    "contract C is B(\x7bx: 7\x7d) \x7b\x7d")

/-- What `A` gets for `x` is the block, which is no value. -/
example : (plan passedDown ((passedDown.contract? "C").getD default) fun _ => true).map
    (fun p => p.report.initializers) =
      .ok ["__constructor_A((\x7bx: 7\x7d))", "__constructor_B(\x7bx: 7\x7d)"] := by
  decide +kernel

end Construction

end SolNorm
