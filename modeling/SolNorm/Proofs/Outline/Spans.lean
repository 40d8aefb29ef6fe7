import SolNorm.Outline.Parse
import SolNorm.Outline.Walk
import SolNorm.Proofs.Text.Comments

/-!
Outlines whose spans can be trusted. Every span can be cut out of the text, what belongs to an entry
lies inside it, entries that stand side by side follow each other, and bodies have their braces.
-/

namespace SolNorm

/-- The text has an opening brace at the start of a span and a closing one at its end. -/
def Span.Braced (s : Span) (text : String) : Prop :=
  ∃ before inner after, text.toList = before ++ '{' :: inner ++ '}' :: after ∧
    s.start = Text.byteSize before ∧ s.stop = Text.byteSize (before ++ '{' :: inner) + 1

namespace Span.Braced

variable {s : Span} {text : String}

theorem start_succ_lt (h : s.Braced text) : s.start + 1 < s.stop := by
  obtain ⟨before, inner, after, _, hStart, hStop⟩ := h
  have hBrace : '{'.utf8Size = 1 := rfl
  simp only [Text.byteSize_append, Text.byteSize_cons, hBrace] at hStop
  omega

theorem isBoundary_start (h : s.Braced text) : Text.isBoundary text.toList s.start = true := by
  obtain ⟨before, inner, after, hText, hStart, _⟩ := h
  rw [hText, hStart, List.append_assoc]
  exact Text.isBoundary_byteSize before _

/-- Text can be put in behind the opening brace. -/
theorem fitsIn_point (h : s.Braced text) : (Span.point (s.start + 1)).FitsIn text := by
  obtain ⟨before, inner, after, hText, hStart, _⟩ := h
  have hOpen : Text.isBoundary text.toList (s.start + 1) = true := by
    refine Text.isBoundary_iff.mpr ⟨before ++ ['{'], inner ++ '}' :: after, by simp [hText], ?_⟩
    rw [hStart, Text.byteSize_append]
    rfl
  exact ⟨Nat.le_refl _, hOpen, hOpen⟩

end Span.Braced

/-- A slice is what stands between two parts of a text. -/
theorem Text.slice?_eq_some_iff {cs middle : List Char} {start stop : Nat} :
    slice? cs start stop = some middle ↔ ∃ before after, cs = before ++ middle ++ after ∧
      start = byteSize before ∧ stop = byteSize (before ++ middle) := by
  constructor
  · intro h
    unfold slice? at h
    by_cases hReversed : stop < start
    · simp [hReversed] at h
    · simp only [hReversed, if_false, Option.bind_eq_bind, Option.bind_eq_some_iff, Option.pure_def,
        Option.some.injEq] at h
      obtain ⟨⟨before, rest⟩, hFirst, ⟨inner, after⟩, hSecond, rfl⟩ := h
      obtain ⟨rfl, hStart⟩ := splitAt?_eq_some hFirst
      obtain ⟨rfl, hStop⟩ := splitAt?_eq_some hSecond
      refine ⟨before, after, (List.append_assoc ..).symm, hStart.symm, ?_⟩
      show stop = byteSize (before ++ inner)
      rw [byteSize_append]
      omega
  · rintro ⟨before, after, rfl, rfl, rfl⟩
    exact slice?_append before middle after

/-- Whether the bytes of a span start with an opening brace and end with a closing one. -/
def Span.isBraced (s : Span) (text : String) : Bool :=
  match Text.slice? text.toList s.start s.stop with
  | some ('{' :: rest) => rest.getLast? == some '}'
  | _ => false

/-- The test for braces at the ends of a span decides whether it has them. -/
theorem Span.isBraced_iff {s : Span} {text : String} : s.isBraced text = true ↔ s.Braced text := by
  have hClose : '}'.utf8Size = 1 := rfl
  unfold isBraced
  constructor
  · intro h
    split at h
    · rename_i rest hSlice
      obtain ⟨inner, rfl⟩ := List.getLast?_eq_some_iff.mp (eq_of_beq h)
      obtain ⟨before, after, hText, hStart, hStop⟩ := Text.slice?_eq_some_iff.mp hSlice
      refine ⟨before, inner, after, by simp [hText], hStart, ?_⟩
      simp only [Text.byteSize_append, Text.byteSize_cons, Text.byteSize_nil, hClose] at hStop ⊢
      omega
    · cases h
  · rintro ⟨before, inner, after, hText, hStart, hStop⟩
    have hSlice : Text.slice? text.toList s.start s.stop = some ('{' :: (inner ++ ['}'])) := by
      refine Text.slice?_eq_some_iff.mpr ⟨before, after, by simp [hText], hStart, ?_⟩
      simp only [Text.byteSize_append, Text.byteSize_cons, Text.byteSize_nil, hClose] at hStop ⊢
      omega
    rw [hSlice]
    simp

instance : DecidableRel Span.Braced := fun _ _ => decidable_of_iff _ Span.isBraced_iff

namespace Outline

@[mk_iff] structure Invocation.SpansFit (text : String) (v : Invocation) : Prop where
  fits : v.span.FitsIn text
  name : v.span.encloses v.nameSpan = true
  args : ∀ s ∈ v.argsSpan, s.FitsIn text ∧ v.span.encloses s = true ∧ v.nameSpan.Before s

@[mk_iff] structure Function.SpansFit (text : String) (f : Function) : Prop where
  fits : f.span.FitsIn text
  name : ∀ s ∈ f.nameSpan, s.FitsIn text
  modifiers : ∀ m ∈ f.modifiers, m.SpansFit text ∧ f.span.encloses m.span = true
  modifiersBefore : (f.modifiers.map Invocation.span).Pairwise Span.Before
  body : ∀ b ∈ f.body, b.span.Braced text ∧ f.span.encloses b.span = true ∧
    ∀ m ∈ f.modifiers, m.span.Before b.span
  hasBody : f.kind = .constructor → f.body.isSome = true
  hasName : f.kind = .function → f.nameSpan.isSome = true

/-- The functions of a contract stand between its braces, and its bases before them. -/
@[mk_iff] structure Contract.SpansFit (text : String) (c : Contract) : Prop where
  fits : c.span.FitsIn text
  body : c.bodySpan.Braced text ∧ c.span.encloses c.bodySpan = true
  bases : ∀ b ∈ c.bases, b.SpansFit text ∧ c.span.encloses b.span = true ∧
    b.span.Before c.bodySpan
  basesBefore : (c.bases.map Invocation.span).Pairwise Span.Before
  functions : ∀ f ∈ c.functions, f.SpansFit text ∧ c.bodySpan.start < f.span.start ∧
    f.span.stop < c.bodySpan.stop

/-- The functions of a source, each with its contract. -/
def definitions (u : Outline) : List (Contract × Function) :=
  u.contracts.flatMap fun c => c.functions.map fun f => (c, f)

theorem mem_definitions_iff {u : Outline} {c : Contract} {f : Function} :
    (c, f) ∈ u.definitions ↔ c ∈ u.contracts ∧ f ∈ c.functions := by
  simp [definitions]

/-- The bytes on which functions are called, and those on which they are named. -/
def nameSpans (u : Outline) : List Span :=
  (u.callSites.map fun site => site.2.calleeSpan) ++
    u.definitions.filterMap fun d => d.2.nameSpan

@[mk_iff] structure ImportsFit (text : String) (u : Outline) : Prop where
  fits : ∀ d ∈ u.imports, d.span.FitsIn text
  before : (u.imports.map Import.span).Pairwise Span.Before

@[mk_iff] structure SpansFit (text : String) (u : Outline) : Prop where
  imports : u.ImportsFit text
  contracts : ∀ c ∈ u.contracts, c.SpansFit text
  contractsBefore : (u.contracts.map Contract.span).Pairwise Span.Before
  callees : ∀ site ∈ u.callSites, site.2.calleeSpan.FitsIn text
  names : u.nameSpans.Pairwise Span.Disjoint

instance (text : String) (v : Invocation) : Decidable (v.SpansFit text) :=
  decidable_of_iff' _ (Invocation.spansFit_iff text v)

instance (text : String) (f : Function) : Decidable (f.SpansFit text) :=
  decidable_of_iff' _ (Function.spansFit_iff text f)

instance (text : String) (c : Contract) : Decidable (c.SpansFit text) :=
  decidable_of_iff' _ (Contract.spansFit_iff text c)

instance (text : String) (u : Outline) : Decidable (u.ImportsFit text) :=
  decidable_of_iff' _ (importsFit_iff text u)

instance (text : String) (u : Outline) : Decidable (u.SpansFit text) :=
  decidable_of_iff' _ (spansFit_iff text u)

end Outline

/-- What is made of some entries of a list comes in the order of the entries. -/
theorem map_filterMap_sublist {α β γ : Type} {f : α → Option β} {g : β → γ} {k : α → γ}
    (h : ∀ a b, f a = some b → g b = k a) (l : List α) :
    ((l.filterMap f).map g).Sublist (l.map k) := by
  induction l with
  | nil => exact .slnil
  | cons a rest ih =>
      rw [List.map_cons]
      cases hf : f a with
      | none =>
          rw [List.filterMap_cons_none hf]
          exact ih.cons (k a)
      | some b =>
          rw [List.filterMap_cons_some hf, List.map_cons, h a b hf]
          exact ih.cons_cons (k a)

/-- A parser that knows the outlines of some texts and refuses all others. -/
def Parser.ofTable (table : List (String × Outline)) : Parser :=
  ⟨"table", fun _ text =>
    match table.lookup text with
    | some unit => .ok unit
    | none => .error ⟨⟨0, 0⟩, "unknown text"⟩⟩

/-- A parser that is given by a table answers with an entry of it. -/
theorem Parser.mem_of_ofTable {table : List (String × Outline)} {asked : List String}
    {text : String} {unit : Outline} (h : (ofTable table).parse asked text = .ok unit) :
    (text, unit) ∈ table := by
  unfold ofTable at h
  dsimp only at h
  split at h
  · rename_i found hFound
    cases h
    obtain ⟨before, after, hTable, _⟩ := List.lookup_eq_some_iff.mp hFound
    rw [hTable]
    exact List.mem_append_right _ List.mem_cons_self
  · cases h

end SolNorm
