import SolNorm.Proofs.Outline.Found

/-!
Functions are placed. The grammar takes a definition apart into a word, a name, a parameter list, what
describes it and an end; each part of the outline is read off one of these, and so the outline has them
in the order in which they stand.
-/

namespace SolNorm.Outline

open Tree.Production

variable {text : String} {n : Tree.Node}

/-- The body of a function has its braces, and what is found in it is inside it. -/
theorem bodyOf_placed (h : n.WellFormed text) (hKind : n.kind = "function_body") :
    (bodyOf text n).Placed text := by
  have hFound : (findsOfAll text n.children).Within text n.span.start n.span.stop :=
    Finds.within_join h.ascending fun c hc => findsOf_within (h.child hc)
  have hBraced := (h.braced (h.matches_core (by rw [hKind]; rfl)) (by rw [hKind]; rfl)).1
  refine ⟨hBraced, fun v hv => ?_, callsPlaced_sortedCalls hFound, hFound.idents⟩
  obtain ⟨hPlaced, hIn⟩ := hFound.locals v hv
  exact ⟨hPlaced, Span.encloses_iff.mpr hIn⟩

/-- Bases and modifiers start with a name. -/
theorem exists_head (h : n.WellFormed text)
    (hKind : n.kind = "inheritance_specifier" ∨ n.kind = "modifier_invocation") :
    ∃ first rest, n.core = first :: rest ∧
      (first.kind = "user_defined_type" ∨ first.kind = "identifier") := by
  rcases hKind with hKind | hKind
  · obtain ⟨first, rest, hCore, hLabel⟩ := starts_char.mul _ (h.matches_core (by rw [hKind]; rfl))
    exact ⟨first, rest, hCore, .inl (congrArg Tree.Label.kind hLabel)⟩
  · obtain ⟨first, rest, hCore, hLabel⟩ := starts_char.mul.mul _ (h.matches_core (by rw [hKind]; rfl))
    exact ⟨first, rest, hCore, .inr (congrArg Tree.Label.kind hLabel)⟩

/-- The name of a base or a modifier goes from its first child to the last one before its argument
list. -/
theorem exists_headSpan (h : n.WellFormed text)
    (hKind : n.kind = "inheritance_specifier" ∨ n.kind = "modifier_invocation") :
    ∃ first front behind last, n.children = (first :: front) ++ behind ∧ last ∈ first :: front ∧
      headSpan n = ⟨first.span.start, last.span.stop⟩ ∧
      ∀ c ∈ first :: front, (c.kind == "(" || c.isArgumentList) = false := by
  obtain ⟨named, others, hCore, hNamed⟩ := exists_head h hKind
  cases hChildren : n.children with
  | nil => simp [Tree.Node.core, hChildren] at hCore
  | cons first rest =>
      have hFirst : (first.kind == "(" || first.isArgumentList) = false := by
        by_cases hComment : first.kind = "comment"
        · simp [hComment, Tree.Node.isArgumentList]
        · obtain rfl : first = named := by
            simp only [Tree.Node.core, Tree.Node.isComment, hChildren] at hCore
            rw [List.filter_cons_of_pos (by simpa using hComment)] at hCore
            exact (List.cons.inj hCore).1
          rcases hNamed with hNamed | hNamed <;> simp [hNamed, Tree.Node.isArgumentList]
      let isName (c : Tree.Node) : Bool := !(c.kind == "(" || c.isArgumentList)
      have hHead : (first :: rest).takeWhile isName = first :: rest.takeWhile isName :=
        List.takeWhile_cons_of_pos (by simp only [isName, hFirst, Bool.not_false])
      obtain ⟨last, hLast⟩ : ∃ last, (first :: rest.takeWhile isName).getLast? = some last :=
        ⟨_, List.getLast?_eq_some_getLast (List.cons_ne_nil _ _)⟩
      refine ⟨first, rest.takeWhile isName, rest.dropWhile isName, last, ?_,
        List.mem_of_getLast? hLast, ?_, ?_⟩
      · rw [List.cons_append, List.takeWhile_append_dropWhile]
      · simp only [headSpan, hChildren, List.head?_cons]
        rw [hHead, hLast]
      · rw [← hHead]
        exact fun c hc => by simpa only [isName, Bool.not_eq_true'] using List.mem_takeWhile_imp hc

/-- The name of a base or a modifier stands before its argument list. -/
theorem headSpan_placed (h : n.WellFormed text)
    (hKind : n.kind = "inheritance_specifier" ∨ n.kind = "modifier_invocation") :
    (headSpan n).start < (headSpan n).stop ∧ (headSpan n).Between n.span.start n.span.stop ∧
      ∀ c ∈ n.children, (c.kind == "(" || c.isArgumentList) = true →
        (headSpan n).stop ≤ c.span.start := by
  obtain ⟨first, front, behind, last, hChildren, hLast, hSpan, hNames⟩ := exists_headSpan h hKind
  have hBefore := List.pairwise_map.mp h.laidOut.before
  rw [hChildren, List.pairwise_append, List.pairwise_cons] at hBefore
  have hLe : first.span.start ≤ last.span.start := by
    rcases List.mem_cons.mp hLast with rfl | hLast
    · exact le_rfl
    · exact (hBefore.1.1 last hLast).1.le
  have hFirst : first ∈ n.children := by simp [hChildren]
  have hLastMem : last ∈ n.children := by
    rw [hChildren]
    exact List.mem_append_left _ hLast
  rw [hSpan]
  refine ⟨hLe.trans_lt (h.child hLastMem).follows.nonempty,
    ⟨(h.laidOut.inside first hFirst).1, (h.laidOut.inside last hLastMem).2⟩, fun c hc hOpens => ?_⟩
  rw [hChildren] at hc
  rcases List.mem_append.mp hc with hc | hc
  · rw [hNames c hc] at hOpens
    cases hOpens
  · exact (hBefore.2.2 last hLast c hc).2

/-- A base or a modifier is placed where it stands. -/
theorem invocationOf_placed (h : n.WellFormed text)
    (hKind : n.kind = "inheritance_specifier" ∨ n.kind = "modifier_invocation") :
    (invocationOf text n).Placed text := by
  obtain ⟨hLt, hIn, hBehind⟩ := headSpan_placed h hKind
  have hName : n.span.encloses (headSpan n) = true := Span.encloses_iff.mpr hIn
  cases hList : n.argumentList? with
  | none =>
      have hArguments : (invocationOf text n).arguments = none := by simp [invocationOf, hList]
      have hArgsSpan : (invocationOf text n).argsSpan = none := by simp [invocationOf, hList]
      have hCalls : (invocationOf text n).calls = [] := by simp [invocationOf, hList]
      refine ⟨⟨h.laidOut.fits, hName, by simp [hArgsSpan]⟩, ?_, hCalls ▸ callsPlaced_nil⟩
      rw [hArguments, hArgsSpan]
      exact .none
  | some found =>
      obtain ⟨list, s⟩ := found
      have hLists := h.lists hList
      obtain ⟨opening, hOpening, hOpens, hStart⟩ := h.exists_opening hList
      have hFinds : (findsOfAll text list).Within text s.start s.stop :=
        Finds.within_join hLists.ascending fun a ha => findsOf_within (hLists.ascending.each a ha).1
      have hArguments : (invocationOf text n).arguments = some (list.map (argumentOf text)) := by
        simp [invocationOf, hList]
      have hArgsSpan : (invocationOf text n).argsSpan = some s := by simp [invocationOf, hList]
      have hCalls : (invocationOf text n).calls = (findsOfAll text list).sortedCalls := by
        simp [invocationOf, hList]
      refine ⟨⟨h.laidOut.fits, hName, ?_⟩, ?_, ?_⟩
      · rw [hArgsSpan]
        rintro _ ⟨⟩
        refine ⟨hLists.fits, Span.encloses_iff.mpr hLists.inside, ?_⟩
        exact Span.before_of_between ⟨le_rfl, le_rfl⟩ hLt
          ⟨(hBehind opening hOpening hOpens).trans hStart, le_rfl⟩
      · rw [hArguments, hArgsSpan]
        exact .some (argumentsOf_ascending hLists.ascending fun a ha =>
          findsOf_within ((hLists.ascending.each a ha).1.of_mem_nodes (a.argumentValue_mem_nodes)))
      · rw [hCalls]
        exact callsPlaced_sortedCalls (hFinds.widen hLists.inside.1 hLists.inside.2)

/-- The words that are attributes of a function. -/
def attributeWords : List String :=
  ["public", "external", "internal", "private", "pure", "view", "payable", "constant", "virtual"]

theorem isSome_ofWord?_iff {word : String} : (Visibility.ofWord? word).isSome = true ↔
    word ∈ ["public", "external", "internal", "private"] := by
  unfold Visibility.ofWord?
  split <;> simp_all

/-- An attribute has the text and the bytes of its node. -/
theorem attributeOf?_eq {a : Attribute} (h : attributeOf? text n = some a) :
    a = ⟨n.text text, n.span⟩ := by
  unfold attributeOf? at h
  exact (Option.some.inj (Option.ite_none_right_eq_some.mp h).2).symm

/-- An attribute is an override, or one of the words that are attributes. -/
theorem attribute_cases {a : Attribute} (h : attributeOf? text n = some a) :
    n.kind = "override_specifier" ∨ isHeaderWord n = true ∧ n.text text ∈ attributeWords := by
  unfold attributeOf? at h
  obtain ⟨hAttribute, _⟩ := Option.ite_none_right_eq_some.mp h
  by_cases hHeader : isHeaderWord n = true
  · rw [if_pos hHeader, Bool.or_eq_true, Bool.or_eq_true, isSome_ofWord?_iff] at hAttribute
    refine .inr ⟨hHeader, ?_⟩
    rcases hAttribute with (hWord | hWord) | hWord
    · exact List.mem_append_left ["pure", "view", "payable", "constant", "virtual"] hWord
    · have hWord : n.text text ∈ ["pure", "view", "payable", "constant"] := by
        simpa [isMutability] using hWord
      exact List.mem_append_right ["public", "external", "internal", "private"]
        (List.mem_append_left ["virtual"] hWord)
    · simp [attributeWords, beq_iff_eq.mp hWord]
  · rw [if_neg hHeader] at hAttribute
    exact .inl (beq_iff_eq.mp hAttribute)

theorem attributeOf?_of_comment (h : n.WellFormed text) (hKind : n.kind = "comment") :
    attributeOf? text n = none := by
  have hSlash := (h.follows.comment hKind).2.2
  have hWords : ∀ w ∈ attributeWords, w.toList.head? ≠ some '/' := by decide
  cases ha : attributeOf? text n with
  | none => rfl
  | some a =>
      rcases attribute_cases ha with hOverride | ⟨_, hWord⟩
      · simp [hKind] at hOverride
      · exact absurd hSlash (hWords _ hWord)

/-- A mark of which no attribute is made is none. -/
theorem attributeOf?_of_mark (h : n.WellFormed text) {kind : String}
    (hLabel : n.label = ⟨kind, false, none⟩) (hNot : kind ∉ "override_specifier" :: attributeWords) :
    attributeOf? text n = none := by
  obtain ⟨hKind, hMark, -⟩ := Tree.Label.mk.inj hLabel
  cases ha : attributeOf? text n with
  | none => rfl
  | some a =>
      rcases attribute_cases ha with hOverride | ⟨_, hWord⟩
      · simp [← hKind, hOverride] at hNot
      · rw [h.text_of_mark hMark, hKind] at hWord
        exact absurd (List.mem_cons_of_mem _ hWord) hNot

/-- The kind of the nodes that define a sort of functions. -/
def nodeKind : FunctionKind → String
  | .function => "function_definition"
  | .constructor => "constructor_definition"
  | .modifier => "modifier_definition"
  | .fallback | .receive => "fallback_receive_definition"

/-- The words with which definitions of functions start. -/
def routineWords : List Tree.Label :=
  ["function", "constructor", "modifier", "fallback", "receive"].map (⟨·, false, none⟩)

/-- What may describe a function behind its parameters. -/
def described : FunctionKind → List Tree.Label
  | .function =>
    ⟨"return_type_definition", true, some "return_type"⟩ :: attributed
  | .constructor => [⟨"modifier_invocation", true, none⟩, ⟨"payable", false, none⟩,
      ⟨"internal", false, none⟩, ⟨"public", false, none⟩]
  | .modifier => [⟨"virtual", true, none⟩, ⟨"override_specifier", true, none⟩]
  | .fallback | .receive => attributed ++ [⟨"returns", false, none⟩, ⟨"(", false, none⟩,
      ⟨"parameter", true, none⟩, ⟨",", false, none⟩, ⟨")", false, none⟩]
where
  attributed : List Tree.Label := ["modifier_invocation", "visibility", "state_mutability", "virtual",
    "override_specifier"].map (⟨·, true, none⟩)

/-- A parameter list with its parentheses. -/
structure ParameterList where
  opening : Tree.Node
  inner : List Tree.Node
  closing : Tree.Node
  openingLabel : opening.label = ⟨"(", false, none⟩
  innerLabels : ∀ c ∈ inner, c.label = ⟨"parameter", true, none⟩ ∨ c.label = ⟨",", false, none⟩
  closingLabel : closing.label = ⟨")", false, none⟩

def ParameterList.nodes (l : ParameterList) : List Tree.Node := l.opening :: (l.inner ++ [l.closing])

/-- A parameter list has parameters, parentheses and commas. -/
theorem ParameterList.label_cases {l : ParameterList} {c : Tree.Node} (hc : c ∈ l.nodes) :
    c.label = ⟨"parameter", true, none⟩ ∨
      ∃ kind ∈ ["(", ",", ")"], c.label = ⟨kind, false, none⟩ := by
  rw [nodes, List.mem_cons, List.mem_append, List.mem_singleton] at hc
  rcases hc with rfl | hc | rfl
  · exact .inr ⟨_, by simp, l.openingLabel⟩
  · exact (l.innerLabels c hc).imp_right fun hLabel => ⟨_, by simp, hLabel⟩
  · exact .inr ⟨_, by simp, l.closingLabel⟩

/-- A match of the production of a parameter list is one. -/
theorem exists_parameterList {list : List Tree.Node} (h : parameterList.Matches list) :
    ∃ l : ParameterList, list = l.nodes := by
  obtain ⟨front, _, rfl, hFront, hLast⟩ := matches_mul_iff.mp h
  obtain ⟨_, inner, rfl, hFirst, hInner⟩ := matches_mul_iff.mp hFront
  obtain ⟨opening, rfl, hOpening⟩ := matches_char_iff.mp hFirst
  obtain ⟨closing, rfl, hClosing⟩ := matches_char_iff.mp hLast
  have hLabels : ∀ l ∈ (listed (rule "parameter") (mark ",")).labels,
      l = ⟨"parameter", true, none⟩ ∨ l = ⟨",", false, none⟩ := by decide
  refine ⟨⟨opening, inner, closing, hOpening, fun c hc => ?_, hClosing⟩, by simp [ParameterList.nodes]⟩
  exact hLabels _ (hInner.label_mem c hc)

/-- The parts of the definition of a function, as the grammar gives them to its sort. -/
structure Parts (kind : FunctionKind) (n : Tree.Node) where
  words : List Tree.Node
  name : Option Tree.Node
  list : Option ParameterList
  behind : List Tree.Node
  last : Tree.Node
  core : n.core = words ++ (name.toList ++ ((list.map ParameterList.nodes).getD [] ++
    (behind ++ [last])))
  wordLabels : ∀ c ∈ words, c.label ∈ routineWords
  nameLabel : ∀ m ∈ name, m.label = ⟨"identifier", true, some "name"⟩
  isNamed : name.isSome = true ↔ kind = .function ∨ kind = .modifier
  isListed : list = none → kind = .modifier
  behindLabels : ∀ c ∈ behind, c.label ∈ described kind
  lastLabel : last.label = ⟨";", false, none⟩ ∧ kind ≠ .constructor ∨
    last.label = ⟨"function_body", true, some "body"⟩

/-- A match of the production of a definition has parts. -/
theorem parts_of_matches {kind : FunctionKind}
    {word name parameters description ending : Tree.Production}
    (h : (routine word name parameters description ending).Matches n.core)
    (hWord : ∀ l ∈ word.labels, l ∈ routineWords)
    (hName : ∀ list, name.Matches list → ∃ m : Option Tree.Node, list = m.toList ∧
      (∀ m' ∈ m, m'.label = ⟨"identifier", true, some "name"⟩) ∧
      (m.isSome = true ↔ kind = .function ∨ kind = .modifier))
    (hList : ∀ list, parameters.Matches list → parameterList.Matches list ∨
      list = [] ∧ kind = .modifier)
    (hDescription : ∀ l ∈ description.labels, l ∈ described kind)
    (hEnding : ending.Single ∧ ∀ l ∈ ending.labels, l = ⟨";", false, none⟩ ∧ kind ≠ .constructor ∨
      l = ⟨"function_body", true, some "body"⟩) :
    Nonempty (Parts kind n) := by
  obtain ⟨front, _, hCore, hFront, hLast⟩ := matches_mul_iff.mp h
  obtain ⟨front, behind, rfl, hFront, hBehind⟩ := matches_mul_iff.mp hFront
  obtain ⟨front, list, rfl, hFront, hParameters⟩ := matches_mul_iff.mp hFront
  obtain ⟨words, named, rfl, hWords, hNamed⟩ := matches_mul_iff.mp hFront
  obtain ⟨m, rfl, hLabel, hSome⟩ := hName _ hNamed
  obtain ⟨last, rfl⟩ := hEnding.1 _ hLast
  have hWords := fun c hc => hWord _ (hWords.label_mem c hc)
  have hBehind := fun c hc => hDescription _ (hBehind.label_mem c hc)
  have hLast := hEnding.2 _ (hLast.label_mem last (by simp))
  rcases hList _ hParameters with hList | ⟨rfl, hKind⟩
  · obtain ⟨l, rfl⟩ := exists_parameterList hList
    exact ⟨⟨words, m, some l, behind, last, by simp [hCore], hWords, hLabel, hSome, nofun, hBehind,
      hLast⟩⟩
  · exact ⟨⟨words, m, none, behind, last, by simp [hCore], hWords, hLabel, hSome, fun _ => hKind,
      hBehind, hLast⟩⟩

/-- Every definition of a function has parts. -/
theorem nonempty_parts (h : n.WellFormed text) {kind : FunctionKind}
    (hKind : n.kind = nodeKind kind) : Nonempty (Parts kind n) := by
  have hNone (hNot : ¬(kind = .function ∨ kind = .modifier)) (list : List Tree.Node)
      (hList : Tree.Production.Matches 1 list) : ∃ m : Option Tree.Node, list = m.toList ∧
        (∀ m' ∈ m, m'.label = ⟨"identifier", true, some "name"⟩) ∧
        (m.isSome = true ↔ kind = .function ∨ kind = .modifier) :=
    ⟨none, matches_one_iff.mp hList, nofun, by simpa using hNot⟩
  have hSome (hNamed : kind = .function ∨ kind = .modifier) (list : List Tree.Node)
      (hList : name.Matches list) : ∃ m : Option Tree.Node, list = m.toList ∧
        (∀ m' ∈ m, m'.label = ⟨"identifier", true, some "name"⟩) ∧
        (m.isSome = true ↔ kind = .function ∨ kind = .modifier) := by
    obtain ⟨m, rfl, hLabel⟩ := matches_char_iff.mp hList
    exact ⟨some m, rfl, by rintro _ ⟨⟩; exact hLabel, by simpa using hNamed⟩
  have hEnding : ending.Single := single_char.add single_char
  cases kind with
  | function =>
      exact parts_of_matches (h.matches_core (by rw [hKind]; rfl)) (by decide) (hSome (.inl rfl))
        (fun _ => .inl) (by decide) ⟨hEnding, by decide⟩
  | constructor =>
      exact parts_of_matches (h.matches_core (by rw [hKind]; rfl)) (by decide) (hNone (by simp))
        (fun _ => .inl) (by decide) ⟨single_char, by decide⟩
  | modifier =>
      refine parts_of_matches (h.matches_core (by rw [hKind]; rfl)) (by decide) (hSome (.inr rfl))
        (fun l hl => ?_) (by decide) ⟨hEnding, by decide⟩
      exact (matches_optional_iff.mp hl).symm.imp_right fun hNil => ⟨hNil, rfl⟩
  | fallback =>
      exact parts_of_matches (h.matches_core (by rw [hKind]; rfl)) (by decide) (hNone (by simp))
        (fun _ => .inl) (by decide) ⟨hEnding, by decide⟩
  | receive =>
      exact parts_of_matches (h.matches_core (by rw [hKind]; rfl)) (by decide) (hNone (by simp))
        (fun _ => .inl) (by decide) ⟨hEnding, by decide⟩

namespace Parts

variable {kind : FunctionKind} (p : Parts kind n) {c : Tree.Node}

/-- Every child of a definition is in one of its parts. -/
theorem mem_core (hc : c ∈ n.core) : c ∈ p.words ∨ c ∈ p.name ∨ (∃ l ∈ p.list, c ∈ l.nodes) ∨
    c ∈ p.behind ∨ c = p.last := by
  rw [p.core] at hc
  simp only [List.mem_append, Option.mem_toList, List.mem_singleton] at hc
  cases hList : p.list with
  | none => simpa [hList] using hc
  | some l => simpa [hList] using hc

theorem word_kind (hc : c ∈ p.words) : c.kind ≠ "(" := by
  have hWords : ∀ l ∈ routineWords, l.kind ≠ "(" := by decide
  exact hWords _ (p.wordLabels c hc)

/-- The labels of the nodes that neither describe the function nor end it. -/
def leading : List Tree.Label :=
  routineWords ++ [⟨"identifier", true, some "name"⟩, ⟨"(", false, none⟩, ⟨"parameter", true, none⟩,
    ⟨",", false, none⟩, ⟨")", false, none⟩]

/-- A child describes the function, ends it, or has a label that only the other parts have. -/
theorem label_cases (hc : c ∈ n.core) : c.label ∈ leading ∨ c ∈ p.behind ∨ c = p.last := by
  rcases p.mem_core hc with hc | hc | ⟨l, hl, hc⟩ | hc
  · exact .inl (List.mem_append_left _ (p.wordLabels c hc))
  · simp [leading, p.nameLabel c hc]
  · rcases l.label_cases hc with hLabel | ⟨kind, hKind, hLabel⟩
    · simp [leading, hLabel]
    · simp only [List.mem_cons, List.not_mem_nil, or_false] at hKind
      rcases hKind with rfl | rfl | rfl <;> simp [leading, hLabel]
  · exact .inr hc

/-- What is of another kind than the other parts describes the function. -/
theorem mem_behind (hc : c ∈ n.core)
    (hNot : c.kind ∉ leading.map Tree.Label.kind ++ [";", "function_body"]) : c ∈ p.behind := by
  rcases p.label_cases hc with hLabel | hc | rfl
  · exact absurd (List.mem_append_left _ (List.mem_map_of_mem hLabel)) hNot
  · exact hc
  · rcases p.lastLabel with ⟨hLabel, _⟩ | hLabel <;> simp [Tree.Label.mk.inj hLabel] at hNot

/-- Only the body has its field or its kind. -/
theorem eq_last (hc : c ∈ n.core) (hBody : c.field = some "body" ∨ c.kind = "function_body") :
    c = p.last := by
  have hLeading : ∀ l ∈ leading, ¬(l.field = some "body" ∨ l.kind = "function_body") := by decide
  have hBehind : ∀ kind, ∀ l ∈ described kind, ¬(l.field = some "body" ∨ l.kind = "function_body") := by
    rintro (_ | _ | _ | _ | _) <;> decide
  rcases p.label_cases hc with hLabel | hc | hc
  · exact absurd hBody (hLeading _ hLabel)
  · exact absurd hBody (hBehind kind _ (p.behindLabels c hc))
  · exact hc

/-- The node that names a function is the name among its parts. -/
theorem functionName?_eq (h : n.WellFormed text) : functionName? kind n = p.name := by
  by_cases hNamed : kind = .function ∨ kind = .modifier
  · obtain ⟨m, hm⟩ := Option.isSome_iff_exists.mp (p.isNamed.mpr hNamed)
    have hField : m.field = some "name" := congrArg Tree.Label.field (p.nameLabel m hm)
    have hWords : ∀ l ∈ routineWords, l.field = none := by decide
    have hFound : n.childByField? "name" = some m := by
      have hNone : p.words.find? (fun c => c.field == some "name") = none := by
        refine List.find?_eq_none.mpr fun c hc => ?_
        have hField : c.field = none := hWords _ (p.wordLabels c hc)
        simp [hField]
      rw [h.childByField?_eq, p.core, hm, List.find?_append, hNone, Option.none_or]
      exact List.find?_cons_of_pos (by simp [hField])
    rcases hNamed with rfl | rfl <;> simp only [functionName?, hFound, Option.some_or, hm]
  · have hNone : p.name = none := by simpa using fun hSome => hNamed (p.isNamed.mp hSome)
    cases kind <;> simp_all [functionName?]

/-- If a function has a body, then it ends with it. -/
theorem functionBody?_cases (h : n.WellFormed text) {b : Tree.Node}
    (hb : functionBody? n = some b) : b = p.last ∧ b.kind = "function_body" := by
  have hBody : b ∈ n.core ∧ (b.field = some "body" ∨ b.kind = "function_body") := by
    rcases Option.or_eq_some_iff.mp hb with hb | ⟨_, hb⟩
    · obtain ⟨hMem, hField⟩ := Tree.Node.mem_of_childByField? hb
      exact ⟨h.mem_core_of_field hMem hField, .inl hField⟩
    · have hKind : b.kind = "function_body" := by simpa using List.find?_some hb
      exact ⟨Tree.Node.mem_core_of_kind (List.mem_of_find?_eq_some hb) hKind (by decide), .inr hKind⟩
  obtain rfl := p.eq_last hBody.1 hBody.2
  refine ⟨rfl, ?_⟩
  rcases p.lastLabel with ⟨hLabel, _⟩ | hLabel
  · simp [Tree.Label.mk.inj hLabel] at hBody
  · exact congrArg Tree.Label.kind hLabel

/-- If a function ends with a body, then it has that one. -/
theorem functionBody?_eq (h : n.WellFormed text)
    (hLabel : p.last.label = ⟨"function_body", true, some "body"⟩) :
    functionBody? n = some p.last := by
  have hFound : n.childByField? "body" = some p.last :=
    h.childByField?_eq_some (by simp [p.core]) (congrArg Tree.Label.field hLabel)
      fun c hc hField => p.eq_last hc (.inl hField)
  rw [functionBody?, hFound, Option.some_or]

include p in
/-- No part of a definition is a list of parameters by itself, so the parameters are among the
children. -/
theorem parameterList_eq : n.parameterList =
    (n.children.filter fun c => c.kind == "parameter", n.parentheses?.map fun found =>
      ⟨found.1.span.start, found.2.2.span.stop⟩) := by
  rw [Tree.Node.parameterList]
  split
  · rename_i list hList
    have hKind : list.kind = "parameter_list" := by simpa using List.find?_some hList
    have hCore := Tree.Node.mem_core_of_kind (List.mem_of_find?_eq_some hList) hKind (by decide)
    have hBehind := p.mem_behind hCore (by rw [hKind]; decide)
    have hNot : ∀ kind, ∀ l ∈ described kind, l.kind ≠ "parameter_list" := by
      rintro (_ | _ | _ | _ | _) <;> decide
    exact absurd hKind (hNot kind _ (p.behindLabels list hBehind))
  · rfl

/-- An attribute of a function describes it. -/
theorem mem_behind_of_attribute (h : n.WellFormed text) (hc : c ∈ headerOf kind n) {a : Attribute}
    (ha : attributeOf? text c = some a) : c ∈ p.behind := by
  obtain ⟨hc, hOther⟩ := List.mem_filter.mp hc
  rw [Bool.not_eq_true', Bool.or_eq_false_iff] at hOther
  have hSame : c.isSame c = true := by simp [Tree.Node.isSame]
  have hMark {kind : String} (hLabel : c.label = ⟨kind, false, none⟩)
      (hNot : kind ∉ "override_specifier" :: attributeWords) : False := by
    simp [attributeOf?_of_mark (h.child hc) hLabel hNot] at ha
  by_cases hComment : c.kind = "comment"
  · simp [attributeOf?_of_comment (h.child hc) hComment] at ha
  · rcases p.mem_core (Tree.Node.mem_core_iff.mpr ⟨hc, hComment⟩) with
      hc | hc | ⟨l, hl, hc⟩ | hc | rfl
    · have hWords : ∀ l ∈ routineWords, l.kind ∉ "override_specifier" :: attributeWords ∧
          l = ⟨l.kind, false, none⟩ := by decide
      obtain ⟨hNot, hLabel⟩ := hWords _ (p.wordLabels c hc)
      exact (hMark hLabel hNot).elim
    · simp [p.functionName?_eq h, Option.mem_def.mp hc, hSame] at hOther
    · rcases l.label_cases hc with hLabel | ⟨kind, hKind, hLabel⟩
      · obtain ⟨hKind, -⟩ := Tree.Label.mk.inj hLabel
        rcases attribute_cases ha with hOverride | ⟨hHeader, _⟩
        · simp [hKind] at hOverride
        · simp [isHeaderWord, hKind] at hHeader
      · have hNot : ∀ kind ∈ ["(", ",", ")"], kind ∉ "override_specifier" :: attributeWords := by decide
        exact (hMark hLabel (hNot kind hKind)).elim
    · exact hc
    · rcases p.lastLabel with ⟨hLabel, _⟩ | hLabel
      · exact (hMark hLabel (by decide)).elim
      · simp [p.functionBody?_eq h hLabel, hSame] at hOther

/-- A parameter stands in the parameter list, or it describes what a fallback returns. -/
theorem mem_of_parameter (hc : c ∈ n.parameterList.1) :
    (∃ l ∈ p.list, c ∈ l.nodes) ∨ c ∈ p.behind ∧ (kind = .fallback ∨ kind = .receive) := by
  rw [p.parameterList_eq] at hc
  obtain ⟨hc, hKind⟩ := List.mem_filter.mp hc
  have hKind : c.kind = "parameter" := by simpa using hKind
  rcases p.mem_core (Tree.Node.mem_core_of_kind hc hKind (by decide)) with hc | hc | hc | hc | rfl
  · have hWords : ∀ l ∈ routineWords, l.kind ≠ "parameter" := by decide
    exact absurd hKind (hWords _ (p.wordLabels c hc))
  · simp [Tree.Label.mk.inj (p.nameLabel c hc)] at hKind
  · exact .inl hc
  · refine .inr ⟨hc, ?_⟩
    have hNot : ∀ kind, (kind = .fallback ∨ kind = .receive) ∨
        ∀ l ∈ described kind, l.kind ≠ "parameter" := by
      rintro (_ | _ | _ | _ | _) <;> decide
    exact (hNot kind).resolve_right fun hNot => hNot _ (p.behindLabels c hc) hKind
  · rcases p.lastLabel with ⟨hLabel, _⟩ | hLabel <;> simp [Tree.Label.mk.inj hLabel] at hKind

section Order

variable (h : n.WellFormed text)

include h

/-- The name stands before everything but the words. -/
theorem name_before {m : Tree.Node} (hm : m ∈ p.name)
    (hc : (∃ l ∈ p.list, c ∈ l.nodes) ∨ c ∈ p.behind ∨ c = p.last) : m.span.Before c.span := by
  refine h.before_of_core (p.words ++ p.name.toList)
    ((p.list.map ParameterList.nodes).getD [] ++ (p.behind ++ [p.last]))
    (by simp [p.core]) (by simp [Option.mem_def.mp hm]) ?_
  rcases hc with ⟨l, hl, hc⟩ | hc | rfl
  · simp [Option.mem_def.mp hl, hc]
  · simp [hc]
  · simp

/-- The parameter list stands before what describes the function. -/
theorem list_before {l : ParameterList} (hl : l ∈ p.list) {m : Tree.Node} (hm : m ∈ l.nodes)
    (hc : c ∈ p.behind ∨ c = p.last) : m.span.Before c.span := by
  refine h.before_of_core (p.words ++ (p.name.toList ++ l.nodes)) (p.behind ++ [p.last])
    (by simp [p.core, Option.mem_def.mp hl]) (by simp [hm]) ?_
  rcases hc with hc | rfl
  · simp [hc]
  · simp

theorem behind_before (hc : c ∈ p.behind) : c.span.Before p.last.span :=
  h.before_of_core
    (p.words ++ (p.name.toList ++ ((p.list.map ParameterList.nodes).getD [] ++ p.behind))) [p.last]
    (by simp [p.core]) (by simp [hc]) List.mem_cons_self

end Order

/-- Where the parameter list of a function stands. A modifier without parameters has it at the end of
its name. -/
structure Lists (text : String) (p : Parts kind n) (s : Span) : Prop where
  fits : s.FitsIn text
  inside : s.Between n.span.start p.last.span.start
  name : ∀ m ∈ p.name, m.span.stop ≤ s.start
  list : ∀ l ∈ p.list, ∀ c ∈ l.nodes, c.span.Between s.start s.stop
  behind : ∀ c ∈ p.behind, s.stop ≤ c.span.start

/-- The nodes of a parameter list lie between its parentheses. -/
theorem nodes_between (h : n.WellFormed text) {l : ParameterList} (hl : l ∈ p.list)
    (hc : c ∈ l.nodes) : c.span.Between l.opening.span.start l.closing.span.stop := by
  have hCore : n.core = p.words ++ (p.name.toList ++ (l.nodes ++ (p.behind ++ [p.last]))) := by
    rw [p.core, Option.mem_def.mp hl, Option.map_some, Option.getD_some]
  have hNodes := h.core_before
  rw [hCore, List.pairwise_append, List.pairwise_append, List.pairwise_append] at hNodes
  have hNodes := hNodes.2.1.2.1.1
  have hFits : l.closing.span.start ≤ l.closing.span.stop :=
    (h.of_core (c := l.closing) (by simp [hCore, ParameterList.nodes])).laidOut.fits.1
  rw [ParameterList.nodes, List.pairwise_cons, List.pairwise_append] at hNodes
  rw [ParameterList.nodes, List.mem_cons, List.mem_append, List.mem_singleton] at hc
  rcases hc with rfl | hc | rfl
  · exact ⟨le_rfl, (hNodes.1 l.closing (by simp)).2.trans hFits⟩
  · exact ⟨(hNodes.1 c (by simp [hc])).1.le, (hNodes.2.2.2 c hc l.closing (by simp)).2.trans hFits⟩
  · exact ⟨(hNodes.1 l.closing (by simp)).1.le, le_rfl⟩

/-- A function with a parameter list has the parentheses of that list. -/
theorem lists_some (h : n.WellFormed text) {l : ParameterList} (hl : l ∈ p.list) :
    (∃ between, n.parentheses? = some (l.opening, between, l.closing)) ∧
      p.Lists text ⟨l.opening.span.start, l.closing.span.stop⟩ := by
  have hOpening : l.opening ∈ l.nodes := List.mem_cons_self
  have hClosing : l.closing ∈ l.nodes := by simp [ParameterList.nodes]
  have hChild {c : Tree.Node} (hc : c ∈ l.nodes) : c ∈ n.children := by
    refine Tree.Node.mem_children_of_mem_core ?_
    simp [p.core, Option.mem_def.mp hl, hc]
  have hCore : n.core = (p.words ++ p.name.toList) ++ l.opening :: (l.inner ++
      l.closing :: (p.behind ++ [p.last])) := by
    simp [p.core, Option.mem_def.mp hl, ParameterList.nodes]
  constructor
  · refine Tree.Node.exists_parentheses? hCore (Tree.Label.mk.inj l.openingLabel).1
      (Tree.Label.mk.inj l.closingLabel).1 (fun c hc => ?_) fun c hc => ?_
    · rcases List.mem_append.mp hc with hc | hc
      · exact p.word_kind hc
      · simp [Tree.Label.mk.inj (p.nameLabel c (Option.mem_toList.mp hc))]
    · rcases l.innerLabels c hc with hLabel | hLabel <;> simp [Tree.Label.mk.inj hLabel]
  · have hOpeningFits := (h.child (hChild hOpening)).laidOut.fits
    have hClosingFits := (h.child (hChild hClosing)).laidOut.fits
    refine ⟨⟨?_, hOpeningFits.2.1, hClosingFits.2.2⟩, ⟨?_, ?_⟩, fun m hm => ?_, ?_, fun c hc => ?_⟩
    · exact hOpeningFits.1.trans (p.nodes_between h hl hOpening).2
    · exact (h.laidOut.inside _ (hChild hOpening)).1
    · exact (p.list_before h hl hClosing (.inr rfl)).2
    · exact (p.name_before h hm (.inl ⟨l, hl, hOpening⟩)).2
    · rintro l' hl' c hc
      obtain rfl := Option.mem_unique hl hl'
      exact p.nodes_between h hl hc
    · exact (p.list_before h hl hClosing (.inl hc)).2

/-- A modifier without parameters has no parentheses. -/
theorem lists_none (h : n.WellFormed text) (hNone : p.list = none) :
    n.parentheses? = none ∧ ∃ m ∈ p.name, p.Lists text (.point m.span.stop) := by
  have hKind := p.isListed hNone
  obtain ⟨m, hm⟩ := Option.isSome_iff_exists.mp (p.isNamed.mpr (.inr hKind))
  have hMem : m ∈ n.children := by
    refine Tree.Node.mem_children_of_mem_core ?_
    simp [p.core, hm]
  have hFits := (h.child hMem).laidOut.fits
  constructor
  · refine Tree.Node.parentheses?_eq_none fun c hc => ?_
    rcases p.mem_core hc with hc | hc | ⟨l, hl, _⟩ | hc | rfl
    · exact p.word_kind hc
    · simp [Tree.Label.mk.inj (p.nameLabel c hc)]
    · simp [hNone] at hl
    · have hNot : ∀ l ∈ described .modifier, l.kind ≠ "(" := by decide
      exact hNot _ (hKind ▸ p.behindLabels c hc)
    · rcases p.lastLabel with ⟨hLabel, _⟩ | hLabel <;> simp [Tree.Label.mk.inj hLabel]
  · refine ⟨m, hm, ⟨le_rfl, hFits.2.2, hFits.2.2⟩, ⟨?_, ?_⟩, ?_, by simp [hNone], fun c hc => ?_⟩
    · exact (h.laidOut.inside m hMem).1.trans hFits.1
    · exact (p.name_before h hm (.inr (.inr rfl))).2
    · intro m' hm'
      obtain rfl := Option.mem_unique (Option.mem_def.mpr hm) hm'
      exact le_rfl
    · exact (p.name_before h hm (.inr (.inl hc))).2

/-- The outline has the parameter list where it stands. -/
theorem lists_paramsSpan (h : n.WellFormed text) :
    p.Lists text (functionOf text kind n).paramsSpan := by
  have hSpan : (functionOf text kind n).paramsSpan = (n.parentheses?.map fun found =>
      ⟨found.1.span.start, found.2.2.span.stop⟩).getD
      (.point ((p.name.map fun m => m.span.stop).getD n.span.start)) := by
    rw [← p.functionName?_eq h]
    show n.parameterList.2.getD _ = _
    rw [p.parameterList_eq]
  rw [hSpan]
  cases hList : p.list with
  | some l =>
      obtain ⟨⟨between, hParentheses⟩, hLists⟩ := p.lists_some h hList
      rw [hParentheses]
      exact hLists
  | none =>
      obtain ⟨hParentheses, m, hm, hLists⟩ := p.lists_none h hList
      rw [hParentheses, Option.mem_def.mp hm]
      exact hLists

end Parts

/-- A function whose header ends at an offset, where its body may start. -/
structure Function.Arranged (text : String) (f : Function) (stop : Nat) : Prop where
  fits : f.span.FitsIn text
  named : ∀ s ∈ f.nameSpan, Spelled text f.name s ∧ s.Between f.span.start f.paramsSpan.start
  params : f.paramsSpan.FitsIn text ∧ f.paramsSpan.Between f.span.start stop
  listed : f.kind = .function ∨ f.kind = .constructor ∨ f.kind = .modifier →
    ∀ v ∈ f.parameters, v.span.Between f.paramsSpan.start f.paramsSpan.stop
  declared : Ascending Variable.span (Variable.Placed text) f.paramsSpan.start stop
    (f.parameters ++ f.returns)
  attributes : Ascending Attribute.span (fun a => a.span.slice? text = some a.text)
    f.paramsSpan.stop stop f.attributes
  modifiers : Ascending Invocation.span (Invocation.Placed text) f.paramsSpan.stop stop f.modifiers
  body : ∀ b ∈ f.body, b.Placed text ∧ b.span.Between stop f.span.stop
  stop : stop ≤ f.span.stop
  hasBody : f.kind = .constructor → f.body.isSome = true
  hasName : f.kind = .function → f.nameSpan.isSome = true

namespace Function.Arranged

variable {f : Function} {stop : Nat}

/-- The spans of such a function are as the passes rely on them. -/
theorem spansFit (h : f.Arranged text stop) : f.SpansFit text where
  fits := h.fits
  name s hs := Span.fitsIn_of_slice? (h.named s hs).1.2
  modifiers m hm := by
    obtain ⟨hPlaced, _, hIn⟩ := h.modifiers.each m hm
    have hParams := h.params.2.1.trans h.params.1.1
    exact ⟨hPlaced.toSpansFit, Span.encloses_iff.mpr (hIn.widen hParams h.stop)⟩
  modifiersBefore := h.modifiers.before
  body b hb := by
    obtain ⟨hPlaced, hIn⟩ := h.body b hb
    have hHeader := h.params.2.1.trans (h.params.1.1.trans h.params.2.2)
    refine ⟨hPlaced.braced, Span.encloses_iff.mpr (hIn.widen hHeader le_rfl), fun m hm => ?_⟩
    obtain ⟨_, hLt, hBefore⟩ := h.modifiers.each m hm
    exact Span.before_of_between hBefore hLt hIn
  hasBody := h.hasBody
  hasName := h.hasName

theorem placed (h : f.Arranged text stop) : f.Placed text where
  toSpansFit := h.spansFit
  named := h.named
  params := ⟨h.params.1, Span.encloses_iff.mpr (h.params.2.widen le_rfl h.stop)⟩
  declared := h.declared.widen le_rfl h.stop
  listed hPlain v hv := Span.encloses_iff.mpr (h.listed hPlain v hv)
  attributes := h.attributes.widen le_rfl h.stop
  invoked := h.modifiers.widen le_rfl h.stop
  inside b hb := by
    obtain ⟨hPlaced, hIn⟩ := h.body b hb
    refine ⟨hPlaced, h.params.2.2.trans hIn.1, fun v hv => ?_, fun a ha => ?_⟩
    · obtain ⟨_, hLt, hBefore⟩ := h.declared.each v hv
      exact Span.before_of_between hBefore hLt hIn
    · obtain ⟨_, hLt, hBefore⟩ := h.attributes.each a ha
      exact Span.before_of_between hBefore hLt hIn

end Function.Arranged

/-- The parameters that a node declares are placed. -/
theorem variables_placed (h : n.WellFormed text) :
    Ascending Variable.span (Variable.Placed text) n.span.start n.span.stop
      (n.parameterList.1.map (variableOf text)) := by
  refine h.parameters_ascending.map fun c hc => ?_
  obtain ⟨⟨hWell, hKind⟩, hLt, _⟩ := h.parameters_ascending.each c hc
  exact ⟨variableOf_placed hWell (by simp [hKind, declarations]), hLt, le_rfl, le_rfl⟩

section Arrangement

variable {kind : FunctionKind} (p : Parts kind n) (h : n.WellFormed text)

include p h

/-- The parameters of a function are declared before its end. -/
theorem parameters_placed : Ascending Variable.span (Variable.Placed text)
    (functionOf text kind n).paramsSpan.start p.last.span.start
    (functionOf text kind n).parameters := by
  have hLists := p.lists_paramsSpan h
  refine (variables_placed h).narrow ?_
  rw [List.forall_mem_map]
  intro c hc
  rcases p.mem_of_parameter hc with ⟨l, hl, hc⟩ | ⟨hc, _⟩
  · exact (hLists.list l hl c hc).widen le_rfl hLists.inside.2
  · exact ⟨hLists.fits.1.trans (hLists.behind c hc), (p.behind_before h hc).2⟩

/-- Only a function without a name declares parameters outside its parameter list. -/
theorem parameters_listed (hPlain : ¬(kind = .fallback ∨ kind = .receive)) :
    ∀ v ∈ (functionOf text kind n).parameters,
      v.span.Between (functionOf text kind n).paramsSpan.start
        (functionOf text kind n).paramsSpan.stop := by
  have hLists := p.lists_paramsSpan h
  show ∀ v ∈ n.parameterList.1.map (variableOf text), _
  rw [List.forall_mem_map]
  intro c hc
  rcases p.mem_of_parameter hc with ⟨l, hl, hc⟩ | ⟨_, hKind⟩
  · exact hLists.list l hl c hc
  · exact absurd hKind hPlain

/-- What a function returns is declared behind its parameters, and not by a fallback. -/
theorem returns_placed : Ascending Variable.span (Variable.Placed text)
    (functionOf text kind n).paramsSpan.stop p.last.span.start (functionOf text kind n).returns ∧
    (kind = .fallback ∨ kind = .receive → (functionOf text kind n).returns = []) := by
  have hReturns : (functionOf text kind n).returns = ((((headerOf kind n).filter fun c =>
      c.kind == "return_type_definition").getLast?.map fun c => c.parameterList.1).getD []).map
        (variableOf text) := rfl
  rw [hReturns]
  cases hLast : ((headerOf kind n).filter fun c => c.kind == "return_type_definition").getLast? with
  | none => exact ⟨.nil, fun _ => rfl⟩
  | some r =>
      have hLists := p.lists_paramsSpan h
      obtain ⟨hHeader, hKind⟩ := List.mem_filter.mp (List.mem_of_getLast? hLast)
      have hKind : r.kind = "return_type_definition" := by simpa using hKind
      have hr : r ∈ n.children := (List.mem_filter.mp hHeader).1
      have hCore := Tree.Node.mem_core_of_kind hr hKind (by decide)
      have hBehind := p.mem_behind hCore (by rw [hKind]; decide)
      constructor
      · exact (variables_placed (h.child hr)).widen (hLists.behind r hBehind)
          (p.behind_before h hBehind).2
      · intro hFallback
        have hNot : ∀ l ∈ described .fallback, l.kind ≠ "return_type_definition" := by decide
        have hLabel := p.behindLabels r hBehind
        rcases hFallback with rfl | rfl <;> exact absurd hKind (hNot _ hLabel)

/-- Parameters and results are declared from left to right. -/
theorem declared_placed : Ascending Variable.span (Variable.Placed text)
    (functionOf text kind n).paramsSpan.start p.last.span.start
    ((functionOf text kind n).parameters ++ (functionOf text kind n).returns) := by
  have hLists := p.lists_paramsSpan h
  have hParameters := parameters_placed p h
  obtain ⟨hReturns, hNone⟩ := returns_placed p h
  by_cases hPlain : kind = .fallback ∨ kind = .receive
  · rw [hNone hPlain, List.append_nil]
    exact hParameters
  · exact (hParameters.narrow (parameters_listed p h hPlain)).append hReturns hLists.fits.1
      hLists.inside.2

/-- The attributes of a function stand behind its parameter list, from left to right. -/
theorem attributes_placed : Ascending Attribute.span (fun a => a.span.slice? text = some a.text)
    (functionOf text kind n).paramsSpan.stop p.last.span.start
    (functionOf text kind n).attributes := by
  have hLists := p.lists_paramsSpan h
  have hHeader : Ascending Tree.Node.span (Tree.Node.WellFormed text) n.span.start n.span.stop
      (headerOf kind n) := h.ascending.sublist List.filter_sublist
  show Ascending _ _ _ _ ((headerOf kind n).filterMap (attributeOf? text))
  refine (hHeader.filterMap fun c hc a ha => ?_).narrow fun a ha => ?_
  · obtain ⟨hWell, hLt, _⟩ := hHeader.each c hc
    rw [attributeOf?_eq ha]
    exact ⟨hWell.slice?, hLt, le_rfl, le_rfl⟩
  · obtain ⟨c, hc, ha⟩ := List.mem_filterMap.mp ha
    have hBehind := p.mem_behind_of_attribute h hc ha
    rw [attributeOf?_eq ha]
    exact ⟨hLists.behind c hBehind, (p.behind_before h hBehind).2⟩

/-- The modifiers of a function stand behind its parameter list, from left to right. -/
theorem modifiers_placed : Ascending Invocation.span (Invocation.Placed text)
    (functionOf text kind n).paramsSpan.stop p.last.span.start
    (functionOf text kind n).modifiers := by
  have hLists := p.lists_paramsSpan h
  have hHeader : Ascending Tree.Node.span (Tree.Node.WellFormed text) n.span.start n.span.stop
      ((headerOf kind n).filter fun c => c.kind == "modifier_invocation") :=
    h.ascending.sublist (List.filter_sublist.trans List.filter_sublist)
  refine (hHeader.map fun c hc => ?_).narrow ?_
  · obtain ⟨hWell, hLt, _⟩ := hHeader.each c hc
    have hKind : c.kind = "modifier_invocation" := by simpa using (List.mem_filter.mp hc).2
    exact ⟨invocationOf_placed hWell (.inr hKind), hLt, le_rfl, le_rfl⟩
  · rw [List.forall_mem_map]
    intro c hc
    obtain ⟨hc, hKind⟩ := List.mem_filter.mp hc
    have hKind : c.kind = "modifier_invocation" := by simpa using hKind
    have hCore := Tree.Node.mem_core_of_kind (List.mem_filter.mp hc).1 hKind (by decide)
    have hBehind := p.mem_behind hCore (by rw [hKind]; decide)
    exact ⟨hLists.behind c hBehind, (p.behind_before h hBehind).2⟩

/-- The header of a function ends where its last part starts. -/
theorem arranged_functionOf : (functionOf text kind n).Arranged text p.last.span.start := by
  have hLists := p.lists_paramsSpan h
  have hLast : p.last ∈ n.children := Tree.Node.mem_children_of_mem_core (by simp [p.core])
  have hInside := h.laidOut.inside p.last hLast
  have hName : (functionOf text kind n).nameSpan = p.name.map Tree.Node.span := by
    rw [← p.functionName?_eq h]
    rfl
  refine ⟨h.laidOut.fits, ?_, ⟨hLists.fits, hLists.inside⟩, fun hPlain => ?_, declared_placed p h,
    attributes_placed p h, modifiers_placed p h, ?_, ?_, fun hKind => ?_, fun hKind => ?_⟩
  · rw [hName]
    intro s hs
    obtain ⟨m, hm, rfl⟩ := Option.map_eq_some_iff.mp hs
    have hMem : m ∈ n.children := Tree.Node.mem_children_of_mem_core (by simp [p.core, hm])
    have hSpelling : (functionOf text kind n).name = m.text text := by
      show ((functionName? kind n).map fun m => m.text text).getD _ = _
      rw [p.functionName?_eq h, hm]
      rfl
    rw [hSpelling]
    exact ⟨⟨(h.child hMem).follows.nonempty, (h.child hMem).slice?⟩,
      (h.laidOut.inside m hMem).1, hLists.name m hm⟩
  · refine parameters_listed p h ?_
    rintro (rfl | rfl) <;> simp [functionOf] at hPlain
  · intro b hb
    obtain ⟨node, hNode, rfl⟩ := Option.map_eq_some_iff.mp hb
    obtain ⟨rfl, hKind⟩ := p.functionBody?_cases h hNode
    exact ⟨bodyOf_placed (h.child hLast) hKind, le_rfl, hInside.2⟩
  · exact (h.child hLast).laidOut.fits.1.trans hInside.2
  · obtain rfl : kind = .constructor := hKind
    have hLabel := p.lastLabel.resolve_left fun hNot => hNot.2 rfl
    simp [functionOf, p.functionBody?_eq h hLabel]
  · obtain rfl : kind = .function := hKind
    rw [hName, Option.isSome_map]
    exact p.isNamed.mpr (.inl rfl)

end Arrangement

theorem functionOf_placed (h : n.WellFormed text) {kind : FunctionKind}
    (hKind : n.kind = nodeKind kind) : (functionOf text kind n).Placed text := by
  obtain ⟨p⟩ := nonempty_parts h hKind
  exact (arranged_functionOf p h).placed

end SolNorm.Outline
