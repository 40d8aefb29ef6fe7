import SolNorm.Proofs.Calls.Renamed
import SolNorm.Proofs.Outline.Routines

/-!
The outline of a well-formed tree. Every entry is inside the one that it belongs to, the entries of a
file, of a contract and of a header follow each other, and no byte belongs to the names of two calls or
functions. Main statement: whatever makes the trees, a text that is accepted has such an outline if its
tree is well formed.
-/

namespace SolNorm

namespace Outline

open Tree.Production

variable {text : String} {lo hi : Nat} {n : Tree.Node}

/-- A variable of a contract is placed where its declaration lies. -/
theorem stateVariableOf_placed (h : n.WellFormed text) (hKind : n.kind = "state_variable_declaration" ∨
    n.kind = "constant_variable_declaration") : (stateVariableOf text n).Placed text := by
  have hDeclares : n.kind ∈ declarations := by
    rcases hKind with hKind | hKind <;> simp [hKind, declarations]
  refine placed_of_declaration h hDeclares (List.takeWhile_subset _) rfl rfl rfl rfl ?_
  have hCalls : (stateVariableOf text n).calls = (((n.childByField? "value").or
      n.children[(n.children.takeWhile fun c => c.kind != "=").length + 1]?).map
        fun v => (findsOf text v).sortedCalls).getD [] := rfl
  rw [hCalls]
  cases hValue : (n.childByField? "value").or
      n.children[(n.children.takeWhile fun c => c.kind != "=").length + 1]? with
  | none => exact callsPlaced_nil
  | some v =>
      have hv : v ∈ n.children := by
        rcases Option.or_eq_some_iff.mp hValue with hField | ⟨_, hNext⟩
        · exact (Tree.Node.mem_of_childByField? hField).1
        · exact List.mem_of_getElem? hNext
      have hIn := h.laidOut.inside v hv
      exact callsPlaced_sortedCalls ((findsOf_within (h.child hv)).widen hIn.1 hIn.2)

theorem memberVariable?_cases {v : Variable} (h : memberVariable? text n = some v) :
    (n.kind = "state_variable_declaration" ∨ n.kind = "constant_variable_declaration") ∧
      v = stateVariableOf text n := by
  obtain ⟨hKind, hv⟩ := Option.ite_none_right_eq_some.mp h
  exact ⟨by simpa using hKind, (Option.some.inj hv).symm⟩

/-- A member is a function if its node defines one of some sort. -/
theorem memberFunction?_cases {f : Function} (h : memberFunction? text n = some f) :
    ∃ kind, n.kind = nodeKind kind ∧ f = functionOf text kind n := by
  unfold memberFunction? at h
  split at h
  · exact ⟨.function, ‹_›, (Option.some.inj h).symm⟩
  · exact ⟨.constructor, ‹_›, (Option.some.inj h).symm⟩
  · exact ⟨.modifier, ‹_›, (Option.some.inj h).symm⟩
  · rename_i hKind
    refine ⟨_, ?_, (Option.some.inj h).symm⟩
    split <;> exact hKind
  · cases h

/-- The members of a contract are placed between its braces, apart from each other. -/
structure MembersPlaced (text : String) (lo hi : Nat) (members : List Tree.Node) : Prop where
  stored : Ascending Variable.span (Variable.Placed text) lo hi
    (members.filterMap (memberVariable? text))
  routines : Ascending Function.span (Function.Placed text) lo hi
    (members.filterMap (memberFunction? text))
  apart : ∀ v ∈ members.filterMap (memberVariable? text),
    ∀ f ∈ members.filterMap (memberFunction? text), v.span.Disjoint f.span

/-- The members between the braces of a body are placed there, apart from each other. -/
theorem membersPlaced (h : n.WellFormed text) (hKind : n.kind = "contract_body") :
    MembersPlaced text (n.span.start + 1) (n.span.stop - 1) n.namedChildren := by
  have hBraced := h.braced (h.matches_core (by rw [hKind]; rfl)) (by rw [hKind]; rfl)
  have hMembers : Ascending Tree.Node.span (Tree.Node.WellFormed text) (n.span.start + 1)
      (n.span.stop - 1) n.namedChildren :=
    (h.ascending.sublist List.filter_sublist).narrow hBraced.2
  refine ⟨hMembers.filterMap fun m hm v hv => ?_, hMembers.filterMap fun m hm f hf => ?_, ?_⟩
  · obtain ⟨hWell, hLt, _⟩ := hMembers.each m hm
    obtain ⟨hKind, rfl⟩ := memberVariable?_cases hv
    exact ⟨stateVariableOf_placed hWell hKind, hLt, le_rfl, le_rfl⟩
  · obtain ⟨hWell, hLt, _⟩ := hMembers.each m hm
    obtain ⟨kind, hKind, rfl⟩ := memberFunction?_cases hf
    exact ⟨functionOf_placed hWell hKind, hLt, le_rfl, le_rfl⟩
  · intro v hv f hf
    obtain ⟨a, ha, hv⟩ := List.mem_filterMap.mp hv
    obtain ⟨b, hb, hf⟩ := List.mem_filterMap.mp hf
    obtain ⟨hVariable, rfl⟩ := memberVariable?_cases hv
    obtain ⟨kind, hFunction, rfl⟩ := memberFunction?_cases hf
    refine (h.eq_or_disjoint (Tree.Node.mem_children_of_mem_namedChildren ha)
      (Tree.Node.mem_children_of_mem_namedChildren hb)).resolve_left ?_
    rintro rfl
    rw [hFunction] at hVariable
    cases kind <;> simp [nodeKind] at hVariable

/-- The words with which contracts start. -/
def contractWords : List Tree.Label :=
  ["abstract", "contract", "interface", "library"].map (⟨·, false, none⟩)

/-- What may stand between the name and the body of a contract. -/
def contractHeritage : List Tree.Label :=
  [⟨"is", false, none⟩, ⟨"inheritance_specifier", true, none⟩, ⟨",", false, none⟩,
    ⟨"layout_specifier", true, none⟩]

/-- The parts of a contract. -/
structure ContractParts (n : Tree.Node) where
  words : List Tree.Node
  name : Tree.Node
  heritage : List Tree.Node
  body : Tree.Node
  core : n.core = words ++ name :: (heritage ++ [body])
  wordLabels : ∀ c ∈ words, c.label ∈ contractWords
  nameLabel : name.label = ⟨"identifier", true, some "name"⟩
  heritageLabels : ∀ c ∈ heritage, c.label ∈ contractHeritage
  bodyLabel : body.label = ⟨"contract_body", true, some "body"⟩

/-- A match of the production of a contract has parts. -/
theorem contractParts_of_matches {words heritage : Tree.Production}
    (h : (contract words heritage).Matches n.core)
    (hWords : ∀ l ∈ words.labels, l ∈ contractWords)
    (hHeritage : ∀ l ∈ heritage.labels, l ∈ contractHeritage) :
    Nonempty (ContractParts n) := by
  obtain ⟨front, _, hCore, hFront, hBody⟩ := matches_mul_iff.mp h
  obtain ⟨front, middle, rfl, hFront, hMiddle⟩ := matches_mul_iff.mp hFront
  obtain ⟨first, _, rfl, hFirst, hName⟩ := matches_mul_iff.mp hFront
  obtain ⟨name, rfl, hNameLabel⟩ := matches_char_iff.mp hName
  obtain ⟨body, rfl, hBodyLabel⟩ := matches_char_iff.mp hBody
  exact ⟨⟨first, name, middle, body, by simp [hCore], fun c hc => hWords _ (hFirst.label_mem c hc),
    hNameLabel, fun c hc => hHeritage _ (hMiddle.label_mem c hc), hBodyLabel⟩⟩

/-- The kinds of nodes that are contracts. -/
def contractKinds : List String :=
  ["contract_declaration", "interface_declaration", "library_declaration"]

theorem nonempty_contractParts (h : n.WellFormed text) (hKind : n.kind ∈ contractKinds) :
    Nonempty (ContractParts n) := by
  simp only [contractKinds, List.mem_cons, List.not_mem_nil, or_false] at hKind
  rcases hKind with hKind | hKind | hKind
  · exact contractParts_of_matches (h.matches_core (by rw [hKind]; rfl)) (by decide) (by decide)
  · exact contractParts_of_matches (h.matches_core (by rw [hKind]; rfl)) (by decide) (by decide)
  · exact contractParts_of_matches (h.matches_core (by rw [hKind]; rfl)) (by decide) (by decide)

/-- The bases that a child lists lie inside it, from left to right. -/
theorem basesOf_ascending (h : n.WellFormed text) :
    Ascending Tree.Node.span (fun b => b.WellFormed text ∧ b.kind = "inheritance_specifier")
      n.span.start n.span.stop (basesOf n) := by
  unfold basesOf
  split
  · exact .singleton ⟨h, beq_iff_eq.mp ‹_›⟩ h.follows.nonempty ⟨le_rfl, le_rfl⟩
  · split
    · exact (h.ascending.filter _).imp fun c ⟨hWell, hKind⟩ => ⟨hWell, beq_iff_eq.mp hKind⟩
    · exact .nil

namespace ContractParts

variable (p : ContractParts n) {c : Tree.Node}

theorem mem_core (hc : c ∈ n.core) :
    c ∈ p.words ∨ c = p.name ∨ c ∈ p.heritage ∨ c = p.body := by
  simpa [p.core] using hc

/-- The name and the body are the only children with their fields. -/
theorem fields (hc : c ∈ n.core) :
    (c.field = some "name" → c = p.name) ∧ (c.field = some "body" → c = p.body) := by
  have hWords : ∀ l ∈ contractWords, l.field = none := by decide
  have hHeritage : ∀ l ∈ contractHeritage, l.field = none := by decide
  rcases p.mem_core hc with hc | rfl | hc | rfl
  · have hNone : c.field = none := hWords _ (p.wordLabels c hc)
    simp [hNone]
  · simp [Tree.Label.mk.inj p.nameLabel]
  · have hNone : c.field = none := hHeritage _ (p.heritageLabels c hc)
    simp [hNone]
  · simp [Tree.Label.mk.inj p.bodyLabel]

variable (h : n.WellFormed text)

include h

theorem childByField?_name : n.childByField? "name" = some p.name :=
  h.childByField?_eq_some (by simp [p.core]) (congrArg Tree.Label.field p.nameLabel)
    fun _ hc => (p.fields hc).1

theorem childByField?_body : n.childByField? "body" = some p.body :=
  h.childByField?_eq_some (by simp [p.core]) (congrArg Tree.Label.field p.bodyLabel)
    fun _ hc => (p.fields hc).2

/-- What a contract builds on stands between its name and its body. -/
theorem heritage_between (hc : c ∈ p.heritage) :
    c.span.Between p.name.span.stop p.body.span.start := by
  have hName : p.name.span.Before c.span :=
    h.before_of_core (p.words ++ [p.name]) (p.heritage ++ [p.body])
      (by simp [p.core]) (by simp) (by simp [hc])
  have hBody : c.span.Before p.body.span :=
    h.before_of_core (p.words ++ p.name :: p.heritage) [p.body]
      (by simp [p.core]) (by simp [hc]) (by simp)
  exact ⟨hName.2, hBody.2⟩

theorem name_before_body : p.name.span.Before p.body.span :=
  h.before_of_core (p.words ++ [p.name]) (p.heritage ++ [p.body])
    (by simp [p.core]) (by simp) (by simp)

omit h in
/-- Bases are listed by what the contract builds on. -/
theorem mem_heritage_of_bases {b : Tree.Node} (hc : c ∈ n.children) (hb : b ∈ basesOf c) :
    c ∈ p.heritage := by
  let Lists (kind : String) : Prop :=
    kind = "inheritance_specifier" ∨ Tree.Node.kindMentions.go "heritage" kind.toList = true
  have hLists : Lists c.kind := by
    unfold basesOf at hb
    split at hb
    · exact .inl (beq_iff_eq.mp ‹_›)
    · split at hb
      · exact .inr ‹_›
      · cases hb
  have hWords : ∀ l ∈ contractWords, ¬Lists l.kind := by decide
  have hComment : c.kind ≠ "comment" := fun hKind => absurd (hKind ▸ hLists) (by decide)
  rcases p.mem_core (Tree.Node.mem_core_iff.mpr ⟨hc, hComment⟩) with hc | rfl | hc | rfl
  · exact absurd hLists (hWords _ (p.wordLabels c hc))
  · rw [(Tree.Label.mk.inj p.nameLabel).1] at hLists
    exact absurd hLists (by decide)
  · exact hc
  · rw [(Tree.Label.mk.inj p.bodyLabel).1] at hLists
    exact absurd hLists (by decide)

/-- The bases of a contract stand between its name and its body. -/
theorem bases_placed : Ascending Invocation.span (Invocation.Placed text) p.name.span.stop
    p.body.span.start ((n.children.flatMap basesOf).map (invocationOf text)) := by
  have hBases : Ascending Tree.Node.span
      (fun b => b.WellFormed text ∧ b.kind = "inheritance_specifier") n.span.start n.span.stop
      (n.children.flatMap basesOf) := h.ascending.flatMap fun c hc => basesOf_ascending (h.child hc)
  refine (hBases.map fun b hb => ?_).narrow ?_
  · obtain ⟨⟨hWell, hKind⟩, hLt, _⟩ := hBases.each b hb
    exact ⟨invocationOf_placed hWell (.inl hKind), hLt, le_rfl, le_rfl⟩
  · rw [List.forall_mem_map]
    intro b hb
    obtain ⟨c, hc, hb⟩ := List.mem_flatMap.mp hb
    have hIn := p.heritage_between h (p.mem_heritage_of_bases hc hb)
    exact ((basesOf_ascending (h.child hc)).each b hb).2.2.widen hIn.1 hIn.2

/-- The outline takes the name and the body of a contract from these parts. -/
theorem contractOf_eq : (contractOf text n).name = p.name.text text ∧
    (contractOf text n).nameSpan = p.name.span ∧ (contractOf text n).bodySpan = p.body.span := by
  simp [contractOf, p.childByField?_name h, p.childByField?_body h]

theorem body_wellFormed : p.body.WellFormed text ∧ p.body.kind = "contract_body" :=
  ⟨h.of_core (by simp [p.core]), congrArg Tree.Label.kind p.bodyLabel⟩

/-- The body of a contract has its braces. -/
theorem body_braced : p.body.span.Braced text := by
  obtain ⟨hBody, hKind⟩ := p.body_wellFormed h
  exact (hBody.braced (hBody.matches_core (by rw [hKind]; rfl)) (by rw [hKind]; rfl)).1

/-- The outline takes the members of a contract from this body. -/
theorem members_placed : MembersPlaced text (p.body.span.start + 1) (p.body.span.stop - 1)
    (((n.childByField? "body").or (n.childOfKind? "contract_body")).map
      Tree.Node.namedChildren |>.getD []) := by
  obtain ⟨hBody, hKind⟩ := p.body_wellFormed h
  rw [p.childByField?_body h]
  exact membersPlaced hBody hKind

include p in
/-- The spans of a contract are as the passes rely on them. -/
theorem contractOf_spansFit : (contractOf text n).SpansFit text := by
  have hName := h.laidOut.inside p.name (Tree.Node.mem_children_of_mem_core (by simp [p.core]))
  have hBody := h.laidOut.inside p.body (Tree.Node.mem_children_of_mem_core (by simp [p.core]))
  have hNameFits := (h.of_core (c := p.name) (by simp [p.core])).laidOut.fits.1
  have hBraced := p.body_braced h
  have hBodySpan := (p.contractOf_eq h).2.2
  have hBases : Ascending Invocation.span (Invocation.Placed text) p.name.span.stop p.body.span.start
      (contractOf text n).bases := p.bases_placed h
  refine ⟨h.laidOut.fits, ?_, fun b hb => ?_, hBases.before, fun f hf => ?_⟩
  · rw [hBodySpan]
    exact ⟨hBraced, Span.encloses_iff.mpr hBody⟩
  · obtain ⟨hPlaced, hLt, hIn⟩ := hBases.each b hb
    rw [hBodySpan]
    refine ⟨hPlaced.toSpansFit, Span.encloses_iff.mpr (hIn.widen ?_ ?_), ?_⟩
    · exact hName.1.trans hNameFits
    · exact hBraced.fitsIn.1.trans hBody.2
    · exact Span.before_of_between hIn hLt ⟨le_rfl, le_rfl⟩
  · obtain ⟨hPlaced, _, hIn⟩ := (p.members_placed h).routines.each f hf
    rw [hBodySpan]
    refine ⟨hPlaced.toSpansFit, hIn.1, hIn.2.trans_lt ?_⟩
    have hBraces := hBraced.start_succ_lt
    omega

end ContractParts

/-- A contract is placed where it lies. -/
theorem contractOf_placed (h : n.WellFormed text) (hKind : n.kind ∈ contractKinds) :
    (contractOf text n).Placed text := by
  obtain ⟨p⟩ := nonempty_contractParts h hKind
  have hName : p.name ∈ n.children := Tree.Node.mem_children_of_mem_core (by simp [p.core])
  obtain ⟨hSpelling, hNameSpan, hBodySpan⟩ := p.contractOf_eq h
  have hMembers := p.members_placed h
  refine ⟨p.contractOf_spansFit h, ?_, ?_, ?_, ?_, hMembers.apart⟩
  · rw [hSpelling, hNameSpan, hBodySpan]
    exact ⟨⟨(h.child hName).follows.nonempty, (h.child hName).slice?⟩,
      (h.laidOut.inside p.name hName).1, (p.name_before_body h).2⟩
  · rw [hNameSpan, hBodySpan]
    exact p.bases_placed h
  · rw [hBodySpan]
    exact hMembers.stored
  · rw [hBodySpan]
    exact hMembers.routines

/-- Names that stand between two offsets and have no byte in common. -/
structure NamesIn (lo hi : Nat) (names : List Span) : Prop where
  inside : ∀ n ∈ names, n.start < n.stop ∧ n.Between lo hi
  apart : names.Pairwise Span.Disjoint

namespace NamesIn

variable {mid : Nat} {names others : List Span}

theorem widen {lo' hi' : Nat} (h : NamesIn lo hi names) (hLo : lo' ≤ lo) (hHi : hi ≤ hi') :
    NamesIn lo' hi' names :=
  ⟨fun n hn => ⟨(h.inside n hn).1, (h.inside n hn).2.widen hLo hHi⟩, h.apart⟩

theorem perm (h : NamesIn lo hi names) (hPerm : others.Perm names) : NamesIn lo hi others :=
  ⟨fun n hn => h.inside n (hPerm.mem_iff.mp hn),
    (hPerm.pairwise_iff fun hab => hab.symm).mpr h.apart⟩

/-- Names of both lists, if none of one shares a byte with one of the other. -/
theorem union (h : NamesIn lo hi names) (hOthers : NamesIn lo hi others)
    (hApart : ∀ n ∈ names, ∀ m ∈ others, n.Disjoint m) : NamesIn lo hi (names ++ others) := by
  refine ⟨fun n hn => ?_, List.pairwise_append.mpr ⟨h.apart, hOthers.apart, hApart⟩⟩
  rcases List.mem_append.mp hn with hn | hn
  · exact h.inside n hn
  · exact hOthers.inside n hn

theorem append (h : NamesIn lo mid names) (hOthers : NamesIn mid hi others) (hLo : lo ≤ mid)
    (hHi : mid ≤ hi) : NamesIn lo hi (names ++ others) := by
  refine (h.widen le_rfl hHi).union (hOthers.widen hLo le_rfl) fun n hn m hm => ?_
  obtain ⟨hLt, hIn⟩ := h.inside n hn
  exact .inl (Span.before_of_between hIn hLt (hOthers.inside m hm).2)

/-- Names inside spans that have no byte in common. -/
theorem disjoint {s t : Span} (h : NamesIn s.start s.stop names)
    (hOthers : NamesIn t.start t.stop others) (hApart : s.Disjoint t) :
    ∀ n ∈ names, ∀ m ∈ others, n.Disjoint m := by
  intro n hn m hm
  obtain ⟨hLt, hIn⟩ := h.inside n hn
  obtain ⟨hLt', hIn'⟩ := hOthers.inside m hm
  exact hApart.of_between hIn hLt hIn' hLt'

/-- The names of entries that have no byte in common. -/
theorem flatMap {β : Type} (span : β → Span) {namesOf : β → List Span} {entries : List β}
    (hApart : (entries.map span).Pairwise Span.Disjoint)
    (hIn : ∀ b ∈ entries, (span b).Between lo hi)
    (hNames : ∀ b ∈ entries, NamesIn (span b).start (span b).stop (namesOf b)) :
    NamesIn lo hi (entries.flatMap namesOf) := by
  refine ⟨fun n hn => ?_, List.pairwise_flatMap.mpr ⟨fun b hb => (hNames b hb).apart, ?_⟩⟩
  · obtain ⟨b, hb, hn⟩ := List.mem_flatMap.mp hn
    exact ((hNames b hb).widen (hIn b hb).1 (hIn b hb).2).inside n hn
  · refine (List.pairwise_map.mp hApart).imp_of_mem fun {b c} hb hc hApart => ?_
    exact (hNames b hb).disjoint (hNames c hc) hApart

end NamesIn

/-- Calls in the order of their names are named on different bytes. -/
theorem CallsPlaced.namesIn {s : Span} {calls : List Call} (h : CallsPlaced text s calls) :
    NamesIn s.start s.stop (calls.map Call.calleeSpan) := by
  refine ⟨?_, h.ascending.imp Or.inl⟩
  rw [List.forall_mem_map]
  intro c hc
  obtain ⟨hPlaced, hIn⟩ := h.placed c hc
  obtain ⟨⟨hLt, _⟩, hCallee⟩ := hPlaced.callee
  rw [Span.encloses_iff] at hIn hCallee
  exact ⟨hLt, hCallee.widen hIn.1 hIn.2⟩

/-- The bytes on which a base or a modifier names what its arguments call. -/
def Invocation.nameSpans (v : Invocation) : List Span := v.calls.map Call.calleeSpan

/-- The bytes on which a variable names what its initial value calls. -/
def Variable.nameSpans (v : Variable) : List Span := v.calls.map Call.calleeSpan

/-- The bytes on which a function is named, and those on which it names what it calls. -/
def Function.nameSpans (f : Function) : List Span :=
  f.nameSpan.toList ++ (f.modifiers.flatMap Invocation.nameSpans ++
    (f.body.map fun b => b.calls.map Call.calleeSpan).getD [])

/-- The bytes on which functions are called or named in a contract. -/
def Contract.nameSpans (c : Contract) : List Span :=
  c.bases.flatMap Invocation.nameSpans ++
    (c.stateVariables.flatMap Variable.nameSpans ++ c.functions.flatMap Function.nameSpans)

/-- A function is named before its modifiers, and they stand before its body, so no byte belongs to
two of the names in it. -/
theorem Function.Placed.namesIn {f : Function} (h : f.Placed text) :
    NamesIn f.span.start f.span.stop f.nameSpans := by
  have hParams := Span.encloses_iff.mp h.params.2
  have hName : NamesIn f.span.start f.paramsSpan.start f.nameSpan.toList := by
    refine ⟨fun s hs => ?_, ?_⟩
    · obtain ⟨⟨hLt, _⟩, hIn⟩ := h.named s (Option.mem_toList.mp hs)
      exact ⟨hLt, hIn⟩
    · cases f.nameSpan with
      | none => exact .nil
      | some s => exact List.pairwise_singleton _ _
  have hModifiers {stop : Nat} (hStop : ∀ m ∈ f.modifiers, m.span.stop ≤ stop) :
      NamesIn f.paramsSpan.stop stop (f.modifiers.flatMap Invocation.nameSpans) := by
    refine .flatMap Invocation.span (h.invoked.before.imp Or.inl) (fun m hm => ?_)
      fun m hm => ((h.invoked.each m hm).1).calls.namesIn
    exact ⟨(h.invoked.each m hm).2.2.1, hStop m hm⟩
  refine hName.append ?_ hParams.1 (h.params.1.1.trans hParams.2)
  cases hBody : f.body with
  | none =>
      rw [Option.map_none, Option.getD_none, List.append_nil]
      exact (hModifiers fun m hm => (h.invoked.each m hm).2.2.2).widen h.params.1.1 le_rfl
  | some b =>
      obtain ⟨_, hInside, hBefore⟩ := h.body b hBody
      obtain ⟨hPlaced, hBehind, _⟩ := h.inside b hBody
      have hCalls := hPlaced.calls.namesIn.widen le_rfl (Span.encloses_iff.mp hInside).2
      refine ((hModifiers fun m hm => (hBefore m hm).2).append hCalls hBehind ?_).widen
        h.params.1.1 le_rfl
      exact hPlaced.braced.fitsIn.1.trans (Span.encloses_iff.mp hInside).2

/-- The bases of a contract stand before its body, where variables and functions are apart from each
other. -/
theorem Contract.Placed.namesIn {c : Contract} (h : c.Placed text) :
    NamesIn c.span.start c.span.stop c.nameSpans := by
  have hBody := Span.encloses_iff.mp h.body.2
  have hBases : NamesIn c.nameSpan.stop c.bodySpan.start (c.bases.flatMap Invocation.nameSpans) :=
    .flatMap Invocation.span (h.derived.before.imp Or.inl) (fun b hb => (h.derived.each b hb).2.2)
      fun b hb => (h.derived.each b hb).1.calls.namesIn
  have hVariables (v : Variable) (hv : v ∈ c.stateVariables) :
      NamesIn v.span.start v.span.stop v.nameSpans := (h.stored.each v hv).1.calls.namesIn
  have hFunctions (f : Function) (hf : f ∈ c.functions) :
      NamesIn f.span.start f.span.stop f.nameSpans := (h.routines.each f hf).1.namesIn
  have hMembers : NamesIn (c.bodySpan.start + 1) (c.bodySpan.stop - 1)
      (c.stateVariables.flatMap Variable.nameSpans ++ c.functions.flatMap Function.nameSpans) := by
    refine NamesIn.union ?_ ?_ fun n hn m hm => ?_
    · exact .flatMap Variable.span (h.stored.before.imp Or.inl)
        (fun v hv => (h.stored.each v hv).2.2) hVariables
    · exact .flatMap Function.span (h.routines.before.imp Or.inl)
        (fun f hf => (h.routines.each f hf).2.2) hFunctions
    · obtain ⟨v, hv, hn⟩ := List.mem_flatMap.mp hn
      obtain ⟨f, hf, hm⟩ := List.mem_flatMap.mp hm
      exact (hVariables v hv).disjoint (hFunctions f hf) (h.apart v hv f hf) n hn m hm
  have hHead : c.span.start ≤ c.nameSpan.stop := h.named.2.1.trans h.named.1.1.le
  have hInner := hMembers.widen (Nat.le_succ _) ((Nat.sub_le _ _).trans hBody.2)
  exact (hBases.widen hHead le_rfl).append hInner hBody.1 (h.body.1.fitsIn.1.trans hBody.2)

/-- The calls and the names of functions, collected contract by contract. -/
theorem nameSpans_perm (u : Outline) :
    u.nameSpans.Perm (u.contracts.flatMap Contract.nameSpans) := by
  have hOne (c : Contract) :
      (c.calls.map Call.calleeSpan ++ c.functions.filterMap Function.nameSpan).Perm
        c.nameSpans := by
    have hFunctions : (c.functions.flatMap (fun f => f.calls.map Call.calleeSpan) ++
        c.functions.filterMap Function.nameSpan).Perm (c.functions.flatMap Function.nameSpans) := by
      rw [List.filterMap_eq_flatMap_toList]
      refine (List.flatMap_append_perm _ _ _).trans (List.Perm.flatMap_left _ fun f _ => ?_)
      refine List.perm_append_comm.trans (List.Perm.append_left _ (.of_eq ?_))
      unfold Function.calls Invocation.nameSpans
      cases f.body <;> simp [List.map_flatMap]
    rw [Contract.calls, List.map_append, List.map_append, List.map_flatMap, List.map_flatMap,
      List.map_flatMap, List.append_assoc, List.append_assoc]
    exact (hFunctions.append_left _).append_left _
  rw [nameSpans, callSites_eq, definitions, List.map_flatMap, List.filterMap_flatMap]
  refine (List.flatMap_append_perm _ _ _).trans (List.Perm.flatMap_left _ fun c _ => ?_)
  rw [List.map_map, List.filterMap_map]
  exact hOne c

/-- All calls that are made in a contract are placed. -/
theorem Contract.Placed.calls {c : Contract} (h : c.Placed text) :
    ∀ call ∈ c.calls, call.Placed text := by
  intro call hCall
  simp only [Contract.calls, Function.calls, List.mem_append, List.mem_flatMap] at hCall
  rcases hCall with (⟨b, hb, hCall⟩ | ⟨v, hv, hCall⟩) | ⟨f, hf, ⟨m, hm, hCall⟩ | hCall⟩
  · exact ((h.derived.each b hb).1.calls.placed call hCall).1
  · exact ((h.stored.each v hv).1.calls.placed call hCall).1
  · exact (((h.routines.each f hf).1.invoked.each m hm).1.calls.placed call hCall).1
  · cases hBody : f.body with
    | none => simp [hBody] at hCall
    | some b =>
        rw [hBody] at hCall
        exact (((h.routines.each f hf).1.inside b hBody).1.calls.placed call hCall).1

/-- The tokens of an import are below it. -/
theorem mem_nodes_of_importTokens {n m : Tree.Node} (h : m ∈ importTokens n) : m ∈ n.nodes := by
  rw [importTokens] at h
  simp only [List.mem_flatMap, List.mem_attach, true_and, Subtype.exists] at h
  obtain ⟨c, hc, h⟩ := h
  have hBelow : m ∈ c.nodes := by
    split at h
    · obtain rfl := List.mem_singleton.mp h
      exact m.self_mem_nodes
    · have := Tree.Node.size_lt_of_mem hc
      exact mem_nodes_of_importTokens h
  exact Tree.Node.mem_nodes_trans hBelow (Tree.Node.mem_nodes_of_mem_children hc)
termination_by n.size

/-- The step: a token may be the path of an import, and it never changes where the import is. -/
theorem step_placed (text : String) (s : ImportState) (token : Tree.Node) :
    (s.step text token).directive.span = s.directive.span ∧
      ((s.step text token).directive.pathSpan = s.directive.pathSpan ∨
        (s.step text token).directive.pathSpan = token.span) := by
  unfold ImportState.step
  split
  · simp
  · simp
  · simp
  · simp
  · simp
  · unfold ImportState.name
    split <;> simp
  · simp

/-- The run over all tokens: the path of an import is one of them, or all of the import. -/
theorem importOf_placed (h : n.WellFormed text) : (importOf text n).span = n.span ∧
    (importOf text n).pathSpan.FitsIn text ∧
    (importOf text n).pathSpan.Between n.span.start n.span.stop := by
  have hRun (tokens : List Tree.Node) (hTokens : ∀ t ∈ tokens, t ∈ n.nodes) (s : ImportState)
      (hs : s.directive.span = n.span ∧ s.directive.pathSpan.FitsIn text ∧
        s.directive.pathSpan.Between n.span.start n.span.stop) :
      let t := (tokens.foldl (ImportState.step text) s).directive
      t.span = n.span ∧ t.pathSpan.FitsIn text ∧ t.pathSpan.Between n.span.start n.span.stop := by
    induction tokens generalizing s with
    | nil => exact hs
    | cons token rest ih =>
        obtain ⟨hToken, hRest⟩ := List.forall_mem_cons.mp hTokens
        refine ih hRest _ ?_
        obtain ⟨hSpan, hPath⟩ := step_placed text s token
        refine ⟨hSpan.trans hs.1, ?_⟩
        rcases hPath with hPath | hPath
        · rw [hPath]
          exact hs.2
        · rw [hPath]
          exact ⟨(h.of_mem_nodes hToken).laidOut.fits, h.between hToken⟩
  exact hRun (importTokens n) (fun _ => mem_nodes_of_importTokens) _
    ⟨rfl, h.laidOut.fits, le_rfl, le_rfl⟩

/-- An entry that is a contract comes from a node of such a kind. -/
theorem itemOf_eq_contract {c : Contract} (h : itemOf text n = .contract c) :
    n.kind ∈ contractKinds ∧ contractOf text n = c := by
  unfold itemOf at h
  split at h
  · cases h
  · cases h
  · exact ⟨by simp [contractKinds, *], Item.contract.inj h⟩
  · exact ⟨by simp [contractKinds, *], Item.contract.inj h⟩
  · exact ⟨by simp [contractKinds, *], Item.contract.inj h⟩
  · cases h

theorem itemOf_eq_imports {i : Import} (h : itemOf text n = .imports i) : importOf text n = i := by
  unfold itemOf at h
  split at h
  · cases h
  · exact Item.imports.inj h
  · cases h
  · cases h
  · cases h
  · cases h

/-- The outline of an entry covers the bytes of its node. -/
theorem span_itemOf (h : n.WellFormed text) : (itemOf text n).span = n.span := by
  unfold itemOf
  split
  · rfl
  · exact (importOf_placed h).1
  · rfl
  · rfl
  · rfl
  · rfl

section Files

variable {root : Tree.Node}

theorem mem_items_of_mem_imports {u : Outline} {i : Import} (hi : i ∈ u.imports) :
    .imports i ∈ u.items := by
  obtain ⟨item, hItem, hPick⟩ := List.mem_filterMap.mp hi
  split at hPick <;> cases hPick
  exact hItem

theorem mem_items_of_mem_contracts {u : Outline} {c : Contract} (hc : c ∈ u.contracts) :
    .contract c ∈ u.items := by
  obtain ⟨item, hItem, hPick⟩ := List.mem_filterMap.mp hc
  split at hPick <;> cases hPick
  exact hItem

theorem imports_sublist (u : Outline) :
    (u.imports.map Import.span).Sublist (u.items.map Item.span) := by
  refine map_filterMap_sublist (fun item i hPick => ?_) _
  split at hPick <;> cases hPick
  rfl

theorem contracts_sublist (u : Outline) :
    (u.contracts.map Contract.span).Sublist (u.items.map Item.span) := by
  refine map_filterMap_sublist (fun item c hPick => ?_) _
  split at hPick <;> cases hPick
  rfl

variable (h : root.IsFile text)

include h

/-- The entries of a file follow each other in the text. -/
theorem roots_ascending : Ascending Tree.Node.span (Tree.Node.WellFormed text) 0
    (Text.byteSize text.toList) root.namedChildren := by
  have hStop := Text.le_byteSize_of_isBoundary h.laidOut.fits.2.2
  refine Ascending.sublist ⟨fun c hc => ?_, h.laidOut.before⟩ List.filter_sublist
  have hIn := h.laidOut.inside c hc
  exact ⟨h.entries c hc, (h.entries c hc).follows.nonempty, hIn.widen (Nat.zero_le _) hStop⟩

/-- The outlines of the entries follow each other as the entries do. -/
theorem items_ascending : Ascending Item.span (fun i => i.span.FitsIn text) 0
    (Text.byteSize text.toList) (ofTree text root).items := by
  refine (roots_ascending h).map fun c hc => ?_
  obtain ⟨hWell, hLt, _⟩ := (roots_ascending h).each c hc
  rw [span_itemOf hWell]
  exact ⟨hWell.laidOut.fits, hLt, le_rfl, le_rfl⟩

theorem contracts_placed : ∀ c ∈ (ofTree text root).contracts, c.Placed text := by
  intro c hc
  obtain ⟨m, hm, hItem⟩ := List.mem_map.mp (mem_items_of_mem_contracts hc)
  obtain ⟨hKind, rfl⟩ := itemOf_eq_contract hItem
  exact contractOf_placed ((roots_ascending h).each m hm).1 hKind

theorem contracts_before :
    ((ofTree text root).contracts.map Contract.span).Pairwise Span.Before :=
  (items_ascending h).before.sublist (contracts_sublist _)

/-- The path of an import lies inside the import. -/
theorem imports_placed : ∀ i ∈ (ofTree text root).imports,
    i.pathSpan.FitsIn text ∧ i.span.encloses i.pathSpan = true := by
  intro i hi
  obtain ⟨m, hm, hItem⟩ := List.mem_map.mp (mem_items_of_mem_imports hi)
  obtain ⟨hSpan, hFits, hIn⟩ := importOf_placed ((roots_ascending h).each m hm).1
  rw [← itemOf_eq_imports hItem, hSpan, Span.encloses_iff]
  exact ⟨hFits, hIn⟩

/-- No byte of a file belongs to two of the names of its functions and calls. -/
theorem nameSpans_apart : (ofTree text root).nameSpans.Pairwise Span.Disjoint := by
  have hNames : NamesIn 0 (Text.byteSize text.toList)
      ((ofTree text root).contracts.flatMap Contract.nameSpans) := by
    refine .flatMap Contract.span ((contracts_before h).imp Or.inl)
      (fun c hc => ⟨Nat.zero_le _, ?_⟩) fun c hc => (contracts_placed h c hc).namesIn
    exact Text.le_byteSize_of_isBoundary (contracts_placed h c hc).fits.2.2
  exact (hNames.perm (nameSpans_perm _)).apart

/-- The outline of a tree that is laid out in a text and follows the grammar. -/
theorem ofTree_placed : (ofTree text root).Placed text := by
  refine ⟨⟨⟨fun i hi => ?_, ?_⟩, ?_, contracts_before h, fun site hSite => ?_, nameSpans_apart h⟩,
    rfl, items_ascending h, imports_placed h, contracts_placed h⟩
  · exact ((items_ascending h).each _ (mem_items_of_mem_imports hi)).1
  · exact (items_ascending h).before.sublist (imports_sublist _)
  · exact fun c hc => (contracts_placed h c hc).toSpansFit
  · rw [callSites_eq, List.mem_flatMap] at hSite
    obtain ⟨c, hc, hSite⟩ := hSite
    obtain ⟨call, hCall, rfl⟩ := List.mem_map.mp hSite
    exact Span.fitsIn_of_slice? ((contracts_placed h c hc).calls call hCall).callee.1.2

end Files

/-- A text is accepted if it has a tree and the tree has neither errors nor gaps. -/
theorem parseWith_eq_ok_iff {treeOf : String → Except String Tree.Node} {u : Outline} :
    parseWith treeOf text = .ok u ↔
      ∃ root, treeOf text = .ok root ∧ root.IsComplete ∧ ofTree text root = u := by
  simp only [← Tree.Node.firstError?_eq_none_iff]
  unfold parseWith
  cases treeOf text with
  | error message => simp
  | ok root => cases hError : root.firstError? <;> simp [hError]

/-- What closes nothing is refused where it stands. -/
example : Parser.solidity.parse [] "contract A \x7b\x7d\n\x7d" =
    .error ⟨⟨2, 1⟩, "unexpected '\x7d'"⟩ := by
  decide +kernel

/-- Whatever makes the syntax trees, in the outline of a text that is accepted everything is where it
says it is, provided that the trees fit. -/
theorem placed_of_accepted {treeOf : String → Except String Tree.Node} {earlier : List String}
    {u : Outline} (hTrees : Tree.Fits treeOf text)
    (h : (Parser.ofTrees treeOf).parse earlier text = .ok u) : u.Placed text := by
  obtain ⟨root, hRoot, hComplete, rfl⟩ := parseWith_eq_ok_iff.mp h
  exact ofTree_placed (hTrees root hRoot hComplete)

/-- A base, a variable, a modifier and a body, each with a call in it. -/
def scattered : String :=
  "contract A is B(f(1)) \x7b uint x = g(2); function h(uint a) m(k(a)) \x7b x = h(a + x); \x7d \x7d"

/-- All four calls are placed. -/
theorem scattered_placed : ∃ u, Parser.solidity.parse [] scattered = .ok u ∧
    u.callSites.map (fun site => site.2.callee) = ["f", "g", "k", "h"] ∧ u.Placed scattered := by
  have hCalls : (Parser.solidity.parse [] scattered).map
      (fun u => u.callSites.map fun site => site.2.callee) = .ok ["f", "g", "k", "h"] := by
    decide +kernel
  have hFile : (Tree.read scattered).IsFile scattered := by decide +kernel
  cases hParse : Parser.solidity.parse [] scattered with
  | error e =>
      rw [hParse] at hCalls
      cases hCalls
  | ok u =>
      rw [hParse] at hCalls
      refine ⟨u, rfl, Except.ok.inj hCalls, placed_of_accepted (fun root hRoot _ => ?_) hParse⟩
      cases hRoot
      exact hFile

end Outline

end SolNorm
