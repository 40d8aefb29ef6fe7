import SolNorm.Proofs.Construction.Parameters
import SolNorm.Proofs.Outline.Placed

/-!
What the calls of a merged constructor pass on. Arguments that a contract gives where it names a base
are passed on as they are written, and so are those in the header of the contract's own constructor.
In the header of a base's constructor they can mention its parameters; these are replaced by what the
base is given itself, so that in the end no parameter of a base is mentioned in any call.
-/

namespace SolNorm

/-- What two touching spans cover stands side by side. -/
theorem Span.slice_append {text : String} {a b c : Nat} (hFirst : Span.FitsIn ⟨a, b⟩ text)
    (hSecond : Span.FitsIn ⟨b, c⟩ text) :
    Span.slice ⟨a, c⟩ text = Span.slice ⟨a, b⟩ text ++ Span.slice ⟨b, c⟩ text := by
  have hLeft := slice?_eq_some_iff.mp (slice?_of_fitsIn hFirst)
  have hRight := slice?_eq_some_iff.mp (slice?_of_fitsIn hSecond)
  generalize Span.slice ⟨a, b⟩ text = left at hLeft ⊢
  generalize Span.slice ⟨b, c⟩ text = right at hRight ⊢
  obtain ⟨before, after, hText, rfl, rfl⟩ := Text.slice?_eq_some_iff.mp hLeft
  obtain ⟨front, rest, hAgain, hStart, rfl⟩ := Text.slice?_eq_some_iff.mp hRight
  -- The text is cut at one place in both cases.
  have hSplit := Text.splitAt?_append front (right.toList ++ rest)
  rw [← List.append_assoc, ← hAgain, ← hStart, hText, Text.splitAt?_append, Option.some.injEq,
    Prod.mk.injEq] at hSplit
  obtain ⟨rfl, rfl⟩ := hSplit
  have hWhole : Text.slice? text.toList (Text.byteSize before)
      (Text.byteSize (before ++ left.toList ++ right.toList)) = some (left ++ right).toList := by
    refine Text.slice?_eq_some_iff.mpr ⟨before, rest, ?_, rfl, ?_⟩
    · rw [hText, String.toList_append]
      simp only [List.append_assoc]
    · rw [String.toList_append, List.append_assoc]
  rw [Span.slice, slice?_eq_some_iff.mpr hWhole, Option.getD_some]

theorem Span.slice_empty {text : String} {a : Nat} (h : Text.isBoundary text.toList a = true) :
    Span.slice ⟨a, a⟩ text = "" := by
  have hFits : Span.FitsIn ⟨a, a⟩ text := ⟨le_rfl, h, h⟩
  have hTwice := Span.slice_append hFits hFits
  rwa [eq_comm, String.append_eq_left_iff] at hTwice

namespace Construction

open Outline

/-- A part of an argument that a call passes on, with where it comes from. -/
inductive Piece where
  | copied (text : String)
  /-- A name that is mentioned in arguments as they are written. -/
  | mention (ident : Ident) (given : Binding)
  /-- A parameter of the merged constructor that stands for one of a base. -/
  | exposed (name : String)

/-- An argument in pieces. -/
abbrev Phrase := List Piece

def Piece.spelled : Piece → String
  | .copied text => text
  | .mention x _ => x.name
  | .exposed name => name

namespace Phrase

def spelled (p : Phrase) : String := String.join (p.map Piece.spelled)

@[simp] theorem spelled_nil : spelled [] = "" := rfl

@[simp] theorem spelled_cons (x : Piece) (p : Phrase) : spelled (x :: p) = x.spelled ++ spelled p := by
  simp [spelled]

@[simp] theorem spelled_append (p q : Phrase) : spelled (p ++ q) = spelled p ++ spelled q := by
  simp [spelled]

/-- Put phrases in the place of the names that are mentioned, all at once. -/
def substitute (values : String → Option Phrase) (p : Phrase) : Phrase :=
  p.flatMap fun
    | .mention x b => (values x.name).getD [.mention x b]
    | piece => [piece]

end Phrase

/-- The pieces of a region of the text from an offset on: the names that are mentioned in it, and what
stands before, between and behind them. -/
def Binding.phraseFrom (b : Binding) (text : String) (stop : Nat) : Nat → List Ident → Phrase
  | offset, [] => [.copied (Span.slice ⟨offset, stop⟩ text)]
  | offset, x :: rest =>
    .copied (Span.slice ⟨offset, x.span.start⟩ text) :: .mention x b ::
      b.phraseFrom text stop x.span.stop rest

/-- The pieces of an argument as it is written. -/
def Binding.phrase (b : Binding) (text : String) (e : Expr) : Phrase :=
  b.phraseFrom text e.span.stop e.span.start e.idents

/-- One step of rendering an expression. -/
def renderStep (text : String) (values : String → Option String) (done : String × Nat) (x : Ident) :
    String × Nat :=
  match values x.name with
  | some value => (done.1 ++ Span.slice ⟨done.2, x.span.start⟩ text ++ value, x.span.stop)
  | none => done

/-- What is rendered with the rest of the text up to an offset behind it. -/
def withRest (text : String) (stop : Nat) (done : String × Nat) : String :=
  done.1 ++ Span.slice ⟨done.2, stop⟩ text

/-- An expression is rendered name by name, and then comes the rest of its text. -/
theorem render_eq_withRest (e : Expr) (text : String) (values : String → Option String) :
    e.render text values =
      withRest text e.span.stop (e.idents.foldl (renderStep text values) ("", e.span.start)) :=
  rfl

/-- Rendering from the middle of an expression on. The text before `start` is dealt with; what is
between `start` and `offset` is still to be copied, as no name in it had a value. -/
theorem withRest_foldl {text : String} {b : Binding} {values : String → Option String}
    {phrases : String → Option Phrase} (hValues : ∀ n, values n = (phrases n).map Phrase.spelled)
    {stop : Nat} (hStop : Text.isBoundary text.toList stop = true) {idents : List Ident}
    {front : String} {start offset : Nat} (hStart : Span.FitsIn ⟨start, offset⟩ text)
    (hOffset : offset ≤ stop)
    (hIdents : Ascending Ident.span (fun x => x.span.slice? text = some x.name) offset stop idents) :
    withRest text stop (idents.foldl (renderStep text values) (front, start)) =
      front ++ Span.slice ⟨start, offset⟩ text ++
        Phrase.spelled ((b.phraseFrom text stop offset idents).substitute phrases) := by
  induction idents generalizing front start offset with
  | nil =>
      have hRest : Span.FitsIn ⟨offset, stop⟩ text := ⟨hOffset, hStart.2.2, hStop⟩
      simp [withRest, Binding.phraseFrom, Phrase.substitute, Piece.spelled,
        Span.slice_append hStart hRest, String.append_assoc]
  | cons x rest ih =>
      obtain ⟨hSpelled, _, hIn⟩ := hIdents.each x List.mem_cons_self
      have hFits := Span.fitsIn_of_slice? hSpelled
      have hGap : Span.FitsIn ⟨offset, x.span.start⟩ text := ⟨hIn.1, hStart.2.2, hFits.2.1⟩
      have hToName : Span.FitsIn ⟨start, x.span.start⟩ text :=
        ⟨hStart.1.trans hGap.1, hStart.2.1, hGap.2.2⟩
      have hFront := Span.slice_append hStart hGap
      rw [List.foldl_cons, Binding.phraseFrom]
      cases hValue : phrases x.name with
      | none =>
          have hKept : renderStep text values (front, start) x = (front, start) := by
            rw [renderStep, hValues, hValue]
            rfl
          have hNext : Span.FitsIn ⟨start, x.span.stop⟩ text :=
            ⟨hToName.1.trans hFits.1, hStart.2.1, hFits.2.2⟩
          have hName : x.span.slice text = x.name := by rw [Span.slice, hSpelled, Option.getD_some]
          have hWhole : Span.slice ⟨start, x.span.stop⟩ text =
              Span.slice ⟨start, x.span.start⟩ text ++ x.name := by
            rw [← hName]
            exact Span.slice_append hToName hFits
          rw [hKept, ih hNext hIn.2 hIdents.tail, hWhole, hFront]
          simp [Phrase.substitute, hValue, Piece.spelled, String.append_assoc]
      | some phrase =>
          have hPut : renderStep text values (front, start) x =
              (front ++ Span.slice ⟨start, x.span.start⟩ text ++ phrase.spelled, x.span.stop) := by
            rw [renderStep, hValues, hValue]
            rfl
          have hNext : Span.FitsIn ⟨x.span.stop, x.span.stop⟩ text :=
            ⟨le_rfl, hFits.2.2, hFits.2.2⟩
          rw [hPut, ih hNext hIn.2 hIdents.tail, Span.slice_empty hFits.2.2, hFront]
          simp [Phrase.substitute, hValue, Piece.spelled, String.append_assoc]

/-- An expression is rendered by putting values in the place of the names that it mentions. -/
theorem render_eq_spelled {text : String} (b : Binding) {values : String → Option String}
    {phrases : String → Option Phrase} (hValues : ∀ n, values n = (phrases n).map Phrase.spelled)
    {e : Expr} (h : e.Placed text) :
    e.render text values = ((b.phrase text e).substitute phrases).spelled := by
  have hStart : Span.FitsIn ⟨e.span.start, e.span.start⟩ text := ⟨le_rfl, h.fits.2.1, h.fits.2.1⟩
  rw [render_eq_withRest, withRest_foldl (b := b) hValues h.fits.2.2 hStart h.fits.1 h.idents,
    Span.slice_empty h.fits.2.1, String.append_empty, String.empty_append]
  rfl

/-- An expression none of whose names has a value is rendered as it is written. -/
theorem render_of_none (text : String) {values : String → Option String} (e : Expr)
    (h : ∀ x ∈ e.idents, values x.name = none) : e.render text values = e.span.slice text := by
  have hKept : e.idents.foldl (renderStep text values) ("", e.span.start) = ("", e.span.start) := by
    refine List.foldlRecOn (motive := fun done => done = ("", e.span.start)) _ _ rfl ?_
    intro done hDone x hx
    rw [hDone, renderStep, h x hx]
  rw [render_eq_withRest, hKept, withRest, String.empty_append]

/-- The pieces of an argument spell it. -/
theorem spelled_phrase {text : String} (b : Binding) {e : Expr} (h : e.Placed text) :
    (b.phrase text e).spelled = e.span.slice text := by
  have hNone : (b.phrase text e).substitute (fun _ => none) = b.phrase text e := by
    rw [Phrase.substitute]
    refine (List.flatMap_congr fun piece _ => ?_).trans (List.flatMap_singleton' _)
    cases piece <;> rfl
  have hRendered : e.render text (fun _ => none) = _ :=
    @render_eq_spelled text b (fun _ => none) (fun _ => none) (fun _ => rfl) e h
  rw [← hNone, ← hRendered, render_of_none text e fun _ _ => rfl]

/-- Whether a text starts with a quote and has no other quote before its last character. -/
def isQuoted : List Char → Bool
  | first :: rest =>
    let isQuote (c : Char) : Bool := c == '"' || c == '\''
    isQuote first && !rest.isEmpty && !rest.dropLast.any isQuote
  | [] => false

/-- A value that can stand in the place of a name as it is: a single word, or a quoted text without
quotes in it. -/
def IsSingle (value : String) : Prop :=
  (∀ c ∈ value.toList, c.isAlphanum = true ∨ c = '_' ∨ c = '$') ∨ isQuoted value.toList = true

instance : DecidablePred IsSingle := fun value =>
  inferInstanceAs (Decidable ((∀ c ∈ value.toList, c.isAlphanum = true ∨ c = '_' ∨ c = '$') ∨
    isQuoted value.toList = true))

/-- Parentheses are put around all values but single ones. -/
theorem parenthesize_eq (value : String) :
    parenthesize value = if IsSingle value then value else "(" ++ value ++ ")" := by
  have hWord : (value.toList.all fun c => c.isAlphanum || c == '_' || c == '$') = true ↔
      ∀ c ∈ value.toList, c.isAlphanum = true ∨ c = '_' ∨ c = '$' := by
    simp [or_assoc]
  have hSame : parenthesize value = if ((value.toList.all fun c =>
      c.isAlphanum || c == '_' || c == '$') || isQuoted value.toList) = true then value
      else "(" ++ value ++ ")" := rfl
  rw [hSame]
  refine if_congr ?_ rfl rfl
  rw [Bool.or_eq_true, hWord, IsSingle]

/-- Put parentheses around a phrase unless it spells a single value. -/
def Phrase.grouped (p : Phrase) : Phrase :=
  if IsSingle p.spelled then p else .copied "(" :: p ++ [.copied ")"]

/-- A grouped phrase is spelled in parentheses where the value is. -/
theorem Phrase.spelled_grouped (p : Phrase) : p.grouped.spelled = parenthesize p.spelled := by
  rw [Phrase.grouped, parenthesize_eq]
  split
  · rfl
  · simp [Piece.spelled, String.append_assoc]

theorem Phrase.map_spelled_grouped (p : Option Phrase) :
    (p.map Phrase.grouped).map Phrase.spelled = (p.map Phrase.spelled).map parenthesize := by
  cases p with
  | none => simp only [Option.map_none]
  | some p => simp only [Option.map_some, Phrase.spelled_grouped]

/-- The value of the last parameter of a name. -/
def lastFor? {α : Type} (parameters : List Variable) (values : List α) (name : String) : Option α :=
  ((parameters.zip values).reverse.find? fun p => p.1.name == some name).map Prod.snd

/-- Which value is taken does not depend on what the values are. -/
theorem lastFor?_map {α β : Type} (f : α → β) (parameters : List Variable) (values : List α)
    (name : String) :
    lastFor? parameters (values.map f) name = (lastFor? parameters values name).map f := by
  rw [lastFor?, lastFor?, List.zip_map_right, ← List.map_reverse, List.find?_map, Option.map_map,
    Option.map_map]
  rfl

/-- A name has a value if it is that of a parameter. -/
theorem lastFor?_eq_none_iff {α : Type} {parameters : List Variable} {values : List α}
    (h : values.length = parameters.length) {name : String} :
    lastFor? parameters values name = none ↔ name ∉ parameters.filterMap Variable.name := by
  rw [lastFor?, Option.map_eq_none_iff, List.find?_eq_none, List.mem_filterMap]
  simp only [List.mem_reverse, beq_iff_eq]
  constructor
  · rintro hNone ⟨v, hv, hName⟩
    obtain ⟨value, hValue⟩ : ∃ value, (v, value) ∈ parameters.zip values := by
      rw [← List.map_fst_zip h.ge, List.mem_map] at hv
      obtain ⟨⟨_, value⟩, hMem, rfl⟩ := hv
      exact ⟨value, hMem⟩
    exact hNone _ hValue hName
  · intro hNone x hx hName
    exact hNone ⟨x.1, (List.of_mem_zip hx).1, hName⟩

/-- What a constructor finds for a name is the value of its last parameter of the name. -/
theorem value?_environmentOf (parameters : List Variable) (values : List String) (name : String) :
    (environmentOf parameters values).value? name =
      (lastFor? parameters values name).map parenthesize := by
  rw [Environment.value?, environmentOf, lastFor?, ← List.filterMap_reverse]
  induction (parameters.zip values).reverse with
  | nil => rfl
  | cons p rest ih =>
      obtain ⟨v, value⟩ := p
      rw [List.find?_cons]
      cases hName : v.name with
      | none =>
          rw [List.filterMap_cons_none (by simp [hName])]
          simpa [hName] using ih
      | some n =>
          rw [List.filterMap_cons_some (b := (n, parenthesize value)) (by simp [hName]),
            List.lookup_cons]
          by_cases hSame : n = name
          · simp [hSame]
          · have hLookup : (name == n) = false := beq_eq_false_iff_ne.mpr (Ne.symm hSame)
            have hFind : (some n == some name) = false := by simpa using hSame
            simp only [hLookup, hFind]
            exact ih

/-- What the call for a constructor passes on as the value of a name, with parentheses around it unless
it is single. -/
def Initialization.value? (x : Initialization) (name : String) : Option String :=
  (lastFor? x.ctor.parameters x.arguments name).map parenthesize

section

variable (text : String) (contract : Contract) (bindings : List Binding) (exposed : List Exposed)

/-- The step: one more base is supplied from what the derived contracts have. -/
theorem suppliesOf_cons (c : Contract) (rest : List Contract) :
    suppliesOf text contract (c :: rest) bindings exposed =
      addSupply text contract bindings exposed (suppliesOf text contract rest bindings exposed) c := by
  simp [suppliesOf]

/-- Contracts are supplied from the derived end of the chain. -/
theorem map_contract_suppliesOf (chain : List Contract) :
    (suppliesOf text contract chain bindings exposed).map Supply.contract =
      chain.reverse.map Contract.name := by
  induction chain with
  | nil => rfl
  | cons c rest ih => simp [suppliesOf_cons, addSupply, ih]

/-- What the later contracts of a chain are given does not depend on those before them. -/
theorem suppliesOf_append (before after : List Contract) :
    ∃ added, suppliesOf text contract (before ++ after) bindings exposed =
      suppliesOf text contract after bindings exposed ++ added := by
  induction before with
  | nil => exact ⟨[], by simp⟩
  | cons c rest ih =>
      obtain ⟨added, hAdded⟩ := ih
      rw [List.cons_append, suppliesOf_cons, addSupply, hAdded, List.append_assoc]
      exact ⟨_, rfl⟩

variable {text contract bindings exposed}

/-- What a contract is given is not known before its turn comes. -/
theorem find?_suppliesOf_of_not_mem {before after : List Contract} {c supplier : Contract}
    (hNames : ((before ++ c :: after).map Contract.name).Nodup)
    (hSupplier : supplier ∈ before ++ c :: after) (hEarlier : supplier ∉ after) :
    (suppliesOf text contract after bindings exposed).find?
      (fun s => s.contract == supplier.name) = none := by
  rw [List.find?_eq_none]
  intro s hs hSame
  have hName : s.contract ∈ after.reverse.map Contract.name := by
    rw [← map_contract_suppliesOf text contract bindings exposed]
    exact List.mem_map_of_mem hs
  rw [beq_iff_eq.mp hSame, List.map_reverse, List.mem_reverse] at hName
  obtain ⟨other, hOther, hName⟩ := List.mem_map.mp hName
  have hIn : other ∈ before ++ c :: after :=
    List.mem_append_right _ (List.mem_cons_of_mem _ hOther)
  exact hEarlier (List.inj_on_of_nodup_map hNames hIn hSupplier hName ▸ hOther)

/-- The values for a contract are made of those for the contracts behind it. -/
theorem find?_suppliesOf_split {before after : List Contract} {c : Contract}
    (hNames : ((before ++ c :: after).map Contract.name).Nodup) :
    let values := argumentsFor text contract bindings exposed
      (suppliesOf text contract after bindings exposed) c
    (suppliesOf text contract (before ++ c :: after) bindings exposed).find?
        (fun s => s.contract == c.name) =
      some ⟨c.name, values, environmentOf (parametersOf c) values⟩ := by
  intro values
  obtain ⟨added, hAdded⟩ := suppliesOf_append text contract bindings exposed before (c :: after)
  have hNew : c ∉ after := by
    rw [List.map_append, List.map_cons] at hNames
    exact fun hMem => (List.nodup_cons.mp hNames.of_append_right).1 (List.mem_map_of_mem hMem)
  have hNone : (suppliesOf text contract after bindings exposed).find?
      (fun s => s.contract == c.name) = none :=
    find?_suppliesOf_of_not_mem hNames (List.mem_append_right _ List.mem_cons_self) hNew
  rw [hAdded, suppliesOf_cons, addSupply, List.find?_append, List.find?_append, hNone]
  simp [values]

/-- What a later contract of a chain is given stays the same when more contracts are gone through. -/
theorem find?_suppliesOf_later {before after : List Contract} {c : Contract} (hc : c ∈ after) :
    (suppliesOf text contract (before ++ after) bindings exposed).find?
        (fun s => s.contract == c.name) =
      (suppliesOf text contract after bindings exposed).find? fun s => s.contract == c.name := by
  obtain ⟨added, hAdded⟩ := suppliesOf_append text contract bindings exposed before after
  have hSome : ((suppliesOf text contract after bindings exposed).find?
      fun s => s.contract == c.name).isSome := by
    have hName : c.name ∈ (suppliesOf text contract after bindings exposed).map Supply.contract := by
      rw [map_contract_suppliesOf]
      exact List.mem_map_of_mem (List.mem_reverse.mpr hc)
    obtain ⟨s, hs, hSame⟩ := List.mem_map.mp hName
    rw [List.find?_isSome]
    exact ⟨s, hs, by simp [hSame]⟩
  obtain ⟨s, hs⟩ := Option.isSome_iff_exists.mp hSome
  rw [hAdded, List.find?_append, hs, Option.some_or]

/-- When the turn of a contract comes, the values for the contracts behind it are known. -/
theorem environment_of_later {before after : List Contract} {c later : Contract}
    (hNames : ((before ++ c :: after).map Contract.name).Nodup) (hLater : later ∈ after) :
    ∃ s, (suppliesOf text contract after bindings exposed).find?
        (fun s => s.contract == later.name) = some s ∧
      s.environment = environmentOf (parametersOf later)
        (supplied (suppliesOf text contract (before ++ c :: after) bindings exposed) later) := by
  have hAll : before ++ c :: after = (before ++ [c]) ++ after := by simp
  rw [hAll] at hNames ⊢
  rw [supplied, find?_suppliesOf_later hLater]
  obtain ⟨front, back, rfl⟩ := List.append_of_mem hLater
  rw [List.map_append] at hNames
  rw [find?_suppliesOf_split hNames.of_append_right]
  exact ⟨_, rfl, rfl⟩

end

/-- In the headers of constructors, contracts of a chain give arguments only to contracts that they
inherit. -/
def InvokesInherited (i : Index) (chain : List Contract) : Prop :=
  ∀ c ∈ chain, ∀ f, c.constructor? = some f → ∀ m ∈ f.modifiers, m.arguments.isSome = true →
    ∀ base ∈ chain, base.name = lastSegment m.name → Relation.TransGen i.Extends c base

/-- A contract stands behind what it inherits. -/
theorem mem_after_of_transGen {i : Index} {name : String} {before after : List Contract}
    {base c : Contract} (h : i.linearize name = .ok (before ++ base :: after))
    (hc : c ∈ before ++ base :: after) (hInherits : Relation.TransGen i.Extends c base) :
    c ∈ after := by
  obtain ⟨own, hOwn, hSub⟩ := Index.linearize_of_mem h hc
  have hBase : base ∈ own := (Index.mem_bases_iff hOwn).mpr hInherits
  have hPair : [base, c].Sublist (before ++ base :: after) :=
    ((List.singleton_sublist.mpr hBase).append (List.Sublist.refl [c])).trans hSub
  have hNew : base ∉ before := by
    have hNodup := (Index.nodup_of_linearize h).of_map
    rw [List.nodup_append] at hNodup
    exact fun hMem => hNodup.2.2 base hMem base List.mem_cons_self rfl
  obtain ⟨front, back, hSplit, hFront, hBack⟩ := List.sublist_append_iff.mp hPair
  cases front with
  | nil =>
      rw [List.nil_append] at hSplit
      rw [← hSplit, List.cons_sublist_cons] at hBack
      exact List.singleton_sublist.mp hBack
  | cons first rest =>
      rw [List.cons_append, List.cons.injEq] at hSplit
      exact (hNew (hFront.subset (hSplit.1 ▸ List.mem_cons_self))).elim

/-- Parameters are taken over for bases only. -/
theorem base_of_mem_exposedParameters {text : String} {contract : Contract} {bases : List Contract}
    {bindings : List Binding} {isInitialized : Contract → Bool} {x : Exposed}
    (hx : x ∈ exposedParameters text contract bases bindings isInitialized) :
    ∃ c ∈ bases, c.name = x.base := by
  have hTag := List.mem_map_of_mem (f := Exposed.base) hx
  rw [exposedParameters, map_base_foldl_expose, List.map_nil, List.nil_append] at hTag
  obtain ⟨_, hOpen, hBase⟩ := List.mem_map.mp hTag
  obtain ⟨c, hc, hVariable⟩ := List.mem_flatMap.mp hOpen
  obtain ⟨_, _, rfl⟩ := List.mem_map.mp hVariable
  exact ⟨c, (List.mem_filter.mp hc).1, hBase⟩

/-- Arguments in the header of a constructor are in that of the supplier's. -/
theorem Binding.IsGiven.constructor?_of_header {chain : List Contract} {b : Binding}
    (h : b.IsGiven chain) (hHeader : b.inConstructor = true) : ∃ f, b.supplier.constructor? = some f := by
  obtain ⟨site, hSite, _, _, hWhere⟩ := h.site
  rcases List.mem_append.mp hSite with hSite | hSite
  · obtain ⟨m, _, rfl⟩ := List.mem_map.mp hSite
    rw [hHeader] at hWhere
    cases hWhere
  · obtain ⟨m, hm, _⟩ := List.mem_map.mp hSite
    cases hCtor : b.supplier.constructor? with
    | none => simp [hCtor] at hm
    | some f => exact ⟨f, rfl⟩

namespace IsPlanned

variable {i : Index} {contract : Contract} {p : Plan} {bases : List Contract} {derived : Contract}
  {bindings : List Binding}

/-- What the contracts of a chain give arguments to in whatever place is inherited by them. -/
theorem inherits_of_isGiven (h : IsPlanned i contract (fun _ => true) p bases derived bindings)
    (hSites : InvokesInherited i (bases ++ [derived])) {b : Binding}
    (hGiven : b.IsGiven (bases ++ [derived])) {base : Contract} (hBase : base ∈ bases ++ [derived])
    (hFor : b.base = base.name) : Relation.TransGen i.Extends b.supplier base := by
  obtain ⟨hSupplier, _, site, hSite, hArguments, hName, _⟩ := hGiven
  rcases List.mem_append.mp hSite with hSite | hSite
  · obtain ⟨m, hm, rfl⟩ := List.mem_map.mp hSite
    refine .single ⟨m, hm, ?_⟩
    rw [← Index.contract?_lastSegment, hName, hFor]
    exact Index.contract?_of_mem_linearize h.order hBase
  · obtain ⟨m, hm, rfl⟩ := List.mem_map.mp hSite
    cases hCtor : b.supplier.constructor? with
    | none => simp [hCtor] at hm
    | some f =>
        rw [hCtor] at hm
        exact hSites _ hSupplier f hCtor m hm (Option.isSome_iff_exists.mpr ⟨_, hArguments⟩) base hBase
          (hFor.symm.trans hName.symm)

/-- The contract itself is given nothing: its parameters are those of the merged constructor. -/
theorem supplied_derived (h : IsPlanned i contract (fun _ => true) p bases derived bindings)
    (hSites : InvokesInherited i (bases ++ [derived])) :
    supplied (suppliesOf i.text contract (bases ++ [derived]) bindings
      (exposedParameters i.text contract bases bindings fun _ => true)) derived = [] := by
  have hMem : derived ∈ bases ++ [derived] := List.mem_append_right _ (List.mem_singleton_self _)
  rw [supplied, find?_suppliesOf_split h.nodup, Option.map_some, Option.getD_some, argumentsFor]
  split
  · rfl
  · have hUnbound : binding? bindings derived.name = none := by
      rw [Option.eq_none_iff_forall_ne_some]
      intro b hb
      obtain ⟨hGiven, hFor⟩ := (binding?_eq_some_iff h.given).mp hb
      have hInherits := h.inherits_of_isGiven hSites hGiven hMem hFor
      cases mem_after_of_transGen h.order hGiven.supplier hInherits
    rw [hUnbound]
    dsimp only
    rw [List.map_eq_nil_iff, List.filter_eq_nil_iff]
    intro x hx hName
    obtain ⟨c, hc, hSame⟩ := base_of_mem_exposedParameters hx
    have hNodup := h.nodup
    rw [List.map_append, List.nodup_append] at hNodup
    exact hNodup.2.2 _ (List.mem_map_of_mem hc) _ (by simp) (hSame.trans (beq_iff_eq.mp hName))

/-- What a base is given is the arguments that are written for it. If their supplier stands behind the
base, the parameters of the supplier's constructor stand for what the supplier is given. -/
theorem supplied_of_split {isInitialized : Contract → Bool}
    (h : IsPlanned i contract isInitialized p bases derived bindings) {base : Contract}
    {before after : List Contract} (hSplit : bases ++ [derived] = before ++ base :: after)
    (hBase : base ∈ bases) {b : Binding} (hGiven : b.IsGiven (bases ++ [derived]))
    (hFor : b.base = base.name) :
    let supplies := suppliesOf i.text contract (bases ++ [derived]) bindings
      (exposedParameters i.text contract bases bindings isInitialized)
    supplied supplies base = b.arguments.map fun e => e.render i.text fun name =>
      if b.inConstructor = true ∧ b.supplier ∈ after then
        (lastFor? (parametersOf b.supplier) (supplied supplies b.supplier) name).map parenthesize
      else none := by
  intro supplies
  have hNodup := h.nodup
  have hSupplier := hGiven.supplier
  have hBound : binding? bindings base.name = some b :=
    (binding?_eq_some_iff h.given).mpr ⟨hGiven, hFor⟩
  have hOther : ¬ (base.name == contract.name) = true := by simpa using h.name_ne hBase
  simp only [supplies]
  generalize exposedParameters i.text contract bases bindings isInitialized = exposed
  rw [hSplit] at hNodup hSupplier ⊢
  rw [supplied, find?_suppliesOf_split hNodup, Option.map_some, Option.getD_some, argumentsFor,
    if_neg hOther, hBound]
  dsimp only
  refine List.map_congr_left fun e _ => congrArg (e.render i.text) (funext fun name => ?_)
  by_cases hLater : b.supplier ∈ after
  · obtain ⟨s, hFind, hEnvironment⟩ := environment_of_later hNodup hLater
    rw [hFind, Option.map_some, Option.getD_some, hEnvironment]
    simp only [hLater, and_true]
    split
    · exact value?_environmentOf _ _ _
    · rfl
  · rw [find?_suppliesOf_of_not_mem hNodup hSupplier hLater]
    simp only [hLater, and_false, if_false, Option.map_none, Option.getD_none, ite_self]
    rfl

/-- Arguments that are given for a base are supplied to it as phrases. -/
theorem supplied_of_isGiven (h : IsPlanned i contract (fun _ => true) p bases derived bindings)
    (hSites : InvokesInherited i (bases ++ [derived])) {base : Contract} (hBase : base ∈ bases)
    {b : Binding} (hGiven : b.IsGiven (bases ++ [derived])) (hFor : b.base = base.name) :
    let supplies := suppliesOf i.text contract (bases ++ [derived]) bindings
      (exposedParameters i.text contract bases bindings fun _ => true)
    supplied supplies base = b.arguments.map fun e => e.render i.text fun name =>
      if b.inConstructor then
        (lastFor? (parametersOf b.supplier) (supplied supplies b.supplier) name).map parenthesize
      else none := by
  intro supplies
  have hMem : base ∈ bases ++ [derived] := List.mem_append_left _ hBase
  obtain ⟨before, after, hSplit⟩ := List.append_of_mem hMem
  have hLater : b.supplier ∈ after :=
    mem_after_of_transGen (hSplit ▸ h.order) (hSplit ▸ hGiven.supplier)
      (h.inherits_of_isGiven hSites hGiven hMem hFor)
  simp only [supplies, h.supplied_of_split hSplit hBase hGiven hFor, hLater, and_true]

end IsPlanned

/-- What the constructors of a chain are given, in pieces. -/
inductive Composes (text : String) (chain : List Contract) (derived : Contract)
    (exposed : List Exposed) : Contract → List Phrase → Prop where
  /-- Nobody gives arguments to the base: its parameters have been taken over. -/
  | taken {base : Contract} (unbound : ¬ IsBound chain base) :
      Composes text chain derived exposed base
        ((exposed.filter fun x => x.base == base.name).map fun x => [.exposed x.name])
  /-- No parameters of bases can be used where the arguments are written. -/
  | written {base : Contract} {b : Binding} (given : b.IsGiven chain) (goal : b.base = base.name)
      (plain : b.inConstructor = false ∨ b.supplier = derived) :
      Composes text chain derived exposed base (b.arguments.map (b.phrase text))
  /-- The parameters of a base's constructor stand for what that base is given. -/
  | passed {base : Contract} {b : Binding} {values : List Phrase} (given : b.IsGiven chain)
      (goal : b.base = base.name) (header : b.inConstructor = true) (other : b.supplier ≠ derived)
      (before : Composes text chain derived exposed b.supplier values) :
      Composes text chain derived exposed base (b.arguments.map fun e =>
        (b.phrase text e).substitute fun name =>
          (lastFor? (parametersOf b.supplier) values name).map Phrase.grouped)

/-- A name that is mentioned where arguments are written means a parameter of the constructor there. -/
def Binding.IsParameter (b : Binding) (x : Ident) : Prop :=
  b.inConstructor = true ∧ x.name ∈ (parametersOf b.supplier).filterMap Variable.name

/-- A name that stands in a call is that of a parameter of the merged constructor, or was not that of
a parameter where it is written. A parameter is one of the merged constructor if it was taken over or
is the contract's own, whatever other parameters are called. -/
def Piece.IsSettled (exposed : List Exposed) (contract : Contract) : Piece → Prop
  | .copied _ => True
  | .exposed name => name ∈ mergedNames exposed contract
  | .mention x b => b.IsParameter x → b.supplier = contract ∧ x.name ∈ mergedNames exposed contract

/-- A contract gives one of its parameters to a contract of the chain, in the header of its
constructor. -/
def HandsDown (chain : List Contract) (c : Contract) : Prop :=
  ∃ site ∈ sites c, site.2 = true ∧ (∃ base ∈ chain, base.name = lastSegment site.1.name) ∧
    ∃ arguments ∈ site.1.arguments, ∃ e ∈ arguments, ∃ x ∈ e.idents,
      x.name ∈ (parametersOf c).filterMap Variable.name

instance (chain : List Contract) (c : Contract) : Decidable (HandsDown chain c) :=
  inferInstanceAs (Decidable (∃ site ∈ sites c, _))

/-- A contract hands a parameter down if arguments that it gives mention one. -/
theorem handsDown_iff {chain : List Contract} {c : Contract} (hc : c ∈ chain) :
    HandsDown chain c ↔ ∃ b : Binding, b.IsGiven chain ∧ b.supplier = c ∧
      ∃ e ∈ b.arguments, ∃ x ∈ e.idents, b.IsParameter x := by
  constructor
  · rintro ⟨site, hSite, hHeader, ⟨base, hBase, hFor⟩, arguments, hArguments, e, he, x, hx, hName⟩
    exact ⟨⟨base.name, c, arguments, true⟩,
      ⟨hc, ⟨base, hBase, rfl⟩, site, hSite, hArguments, hFor.symm, hHeader⟩, rfl, e, he, x, hx, rfl,
      hName⟩
  · rintro ⟨b, ⟨_, ⟨base, hBase, hFor⟩, site, hSite, hArguments, hName, hWhere⟩, rfl, e, he, x, hx,
      hHeader, hParameter⟩
    exact ⟨site, hSite, hWhere.trans hHeader, ⟨base, hBase, hFor.trans hName.symm⟩, b.arguments,
      hArguments, e, he, x, hx, hParameter⟩

/-- A phrase has copied text and mentioned names only. -/
theorem mem_phraseFrom {b : Binding} {text : String} {stop offset : Nat} {idents : List Ident}
    {piece : Piece} (h : piece ∈ b.phraseFrom text stop offset idents) :
    (∃ t, piece = .copied t) ∨ ∃ x ∈ idents, piece = .mention x b := by
  induction idents generalizing offset with
  | nil => exact .inl ⟨_, List.mem_singleton.mp h⟩
  | cons x rest ih =>
      rcases List.mem_cons.mp h with rfl | h
      · exact .inl ⟨_, rfl⟩
      rcases List.mem_cons.mp h with rfl | h
      · exact .inr ⟨x, List.mem_cons_self, rfl⟩
      rcases ih h with hCopied | ⟨y, hy, rfl⟩
      · exact .inl hCopied
      · exact .inr ⟨y, List.mem_cons_of_mem _ hy, rfl⟩

/-- Every name of an argument is one of its pieces. -/
theorem mention_mem_phraseFrom {b : Binding} (text : String) (stop offset : Nat) {idents : List Ident}
    {x : Ident} (h : x ∈ idents) : .mention x b ∈ b.phraseFrom text stop offset idents := by
  induction idents generalizing offset with
  | nil => cases h
  | cons y rest ih =>
      rcases List.mem_cons.mp h with rfl | h
      · exact List.mem_cons_of_mem _ List.mem_cons_self
      · exact List.mem_cons_of_mem _ (List.mem_cons_of_mem _ (ih _ h))

theorem mem_grouped {p : Phrase} {piece : Piece} (h : piece ∈ p.grouped) :
    (∃ t, piece = .copied t) ∨ piece ∈ p := by
  unfold Phrase.grouped at h
  split at h
  · exact .inr h
  · rcases List.mem_append.mp h with h | h
    · rcases List.mem_cons.mp h with rfl | h
      · exact .inl ⟨_, rfl⟩
      · exact .inr h
    · exact .inl ⟨_, List.mem_singleton.mp h⟩

/-- Names that are left in a phrase after a substitution have no value in it. -/
theorem mem_substitute {values : String → Option Phrase} {p : Phrase} {piece : Piece}
    (h : piece ∈ p.substitute values) :
    (∃ name phrase, values name = some phrase ∧ piece ∈ phrase) ∨
      piece ∈ p ∧ ∀ x b, piece = .mention x b → values x.name = none := by
  obtain ⟨source, hSource, hPiece⟩ := List.mem_flatMap.mp h
  cases source with
  | copied t =>
      rw [List.mem_singleton.mp hPiece]
      exact .inr ⟨hSource, by simp⟩
  | exposed name =>
      rw [List.mem_singleton.mp hPiece]
      exact .inr ⟨hSource, by simp⟩
  | mention x b =>
      dsimp only at hPiece
      cases hValue : values x.name with
      | some phrase =>
          rw [hValue] at hPiece
          exact .inl ⟨x.name, phrase, hValue, hPiece⟩
      | none =>
          rw [hValue] at hPiece
          rw [List.mem_singleton.mp hPiece]
          refine .inr ⟨hSource, ?_⟩
          rintro _ _ ⟨⟩
          exact hValue

/-- A value that is taken is one of those that are given. -/
theorem mem_of_lastFor? {α : Type} {parameters : List Variable} {values : List α} {name : String}
    {value : α} (h : lastFor? parameters values name = some value) : value ∈ values := by
  obtain ⟨pair, hFind, rfl⟩ := Option.map_eq_some_iff.mp h
  exact (List.of_mem_zip (List.mem_reverse.mp (List.mem_of_find?_eq_some hFind))).2

/-- A name in a call that is a parameter where it is written is one of the last contract of the chain:
those of the others have been replaced. -/
theorem Composes.supplier_of_isParameter {text : String} {chain : List Contract} {derived base : Contract}
    {exposed : List Exposed} {phrases : List Phrase}
    (hLength : ∀ c phrases, Composes text chain derived exposed c phrases → c ∈ chain → c ≠ derived →
      phrases.length = (parametersOf c).length)
    (h : Composes text chain derived exposed base phrases) {phrase : Phrase} (hPhrase : phrase ∈ phrases)
    {x : Ident} {b : Binding} (hMention : .mention x b ∈ phrase) (hParameter : b.IsParameter x) :
    b.supplier = derived ∧ b.IsGiven chain ∧ ∃ e ∈ b.arguments, x ∈ e.idents := by
  induction h generalizing phrase with
  | taken _ =>
      obtain ⟨y, _, rfl⟩ := List.mem_map.mp hPhrase
      cases List.mem_singleton.mp hMention
  | written given _ plain =>
      obtain ⟨e, he, rfl⟩ := List.mem_map.mp hPhrase
      rcases mem_phraseFrom hMention with ⟨t, hCopied⟩ | ⟨y, hy, hSame⟩
      · cases hCopied
      · obtain ⟨rfl, rfl⟩ := Piece.mention.inj hSame
        rcases plain with hPlain | hOwn
        · rw [hParameter.1] at hPlain
          cases hPlain
        · exact ⟨hOwn, given, e, he, hy⟩
  | passed given _ _ other before ih =>
      obtain ⟨e, _, rfl⟩ := List.mem_map.mp hPhrase
      rcases mem_substitute hMention with ⟨name, value, hValue, hIn⟩ | ⟨hIn, hNone⟩
      · obtain ⟨source, hLast, rfl⟩ := Option.map_eq_some_iff.mp hValue
        rcases mem_grouped hIn with ⟨t, hCopied⟩ | hIn
        · cases hCopied
        · exact ih (mem_of_lastFor? hLast) hIn
      · -- The name had no value, so it is no parameter after all.
        rcases mem_phraseFrom hIn with ⟨t, hCopied⟩ | ⟨y, _, hSame⟩
        · cases hCopied
        · obtain ⟨rfl, rfl⟩ := Piece.mention.inj hSame
          have hGone := Option.map_eq_none_iff.mp (hNone x b rfl)
          have hSame := hLength _ _ before given.supplier other
          exact ((lastFor?_eq_none_iff hSame).mp hGone hParameter.2).elim

/-- Names that are taken over are names of the merged constructor's parameters. -/
theorem Composes.mem_mergedNames {text : String} {chain : List Contract} {derived base : Contract}
    {exposed : List Exposed} {phrases : List Phrase} (contract : Contract)
    (h : Composes text chain derived exposed base phrases) {phrase : Phrase} (hPhrase : phrase ∈ phrases)
    {name : String} (hExposed : .exposed name ∈ phrase) : name ∈ mergedNames exposed contract := by
  induction h generalizing phrase with
  | taken _ =>
      obtain ⟨y, hy, rfl⟩ := List.mem_map.mp hPhrase
      obtain rfl := Piece.exposed.inj (List.mem_singleton.mp hExposed)
      exact List.mem_append_left _ (List.mem_map_of_mem (List.mem_filter.mp hy).1)
  | written _ _ _ =>
      obtain ⟨e, _, rfl⟩ := List.mem_map.mp hPhrase
      rcases mem_phraseFrom hExposed with ⟨t, hCopied⟩ | ⟨y, _, hSame⟩ <;> contradiction
  | passed _ _ _ _ _ ih =>
      obtain ⟨e, _, rfl⟩ := List.mem_map.mp hPhrase
      rcases mem_substitute hExposed with ⟨name, value, hValue, hIn⟩ | ⟨hIn, _⟩
      · obtain ⟨source, hLast, rfl⟩ := Option.map_eq_some_iff.mp hValue
        rcases mem_grouped hIn with ⟨t, hCopied⟩ | hIn
        · cases hCopied
        · exact ih (mem_of_lastFor? hLast) hIn
      · rcases mem_phraseFrom hIn with ⟨t, hCopied⟩ | ⟨y, _, hSame⟩ <;> contradiction

/-- The values for a base are spelled by phrases that are composed along the chain. -/
def Composed (text : String) (chain : List Contract) (derived : Contract) (exposed : List Exposed)
    (base : Contract) (values : List String) : Prop :=
  ∃ phrases, Composes text chain derived exposed base phrases ∧ values = phrases.map Phrase.spelled

/-- The arguments that a contract gives are where their spans say. -/
def ArgumentsPlaced (text : String) (c : Contract) : Prop :=
  ∀ site ∈ sites c, ∀ arguments ∈ site.1.arguments, ∀ e ∈ arguments, e.Placed text

instance (text : String) (c : Contract) : Decidable (ArgumentsPlaced text c) :=
  inferInstanceAs (Decidable (∀ site ∈ sites c, _))

/-- In an outline that is placed, so are the arguments for bases. -/
theorem argumentsPlaced_of_placed {text : String} {u : Outline} (h : u.Placed text) {c : Contract}
    (hc : c ∈ u.contracts) : ArgumentsPlaced text c := by
  have hContract := h.derivations c hc
  have hInvocation {m : Invocation} (hm : m.Placed text) {arguments : List Expr}
      (hArguments : m.arguments = some arguments) : ∀ e ∈ arguments, e.Placed text := by
    have hRel := hm.arguments
    rw [hArguments] at hRel
    generalize m.argsSpan = span at hRel
    cases hRel with
    | some hEach => exact fun e he => (hEach.each e he).1
  intro site hSite arguments hArguments
  rcases List.mem_append.mp hSite with hSite | hSite
  · obtain ⟨m, hm, rfl⟩ := List.mem_map.mp hSite
    exact hInvocation (hContract.derived.each m hm).1 hArguments
  · obtain ⟨m, hm, rfl⟩ := List.mem_map.mp hSite
    cases hCtor : c.constructor? with
    | none => simp [hCtor] at hm
    | some f =>
        rw [hCtor] at hm
        have hf : f.Placed text := (hContract.routines.each f (List.mem_of_find?_eq_some hCtor)).1
        exact hInvocation (hf.invoked.each m hm).1 hArguments

namespace IsPlanned

variable {i : Index} {contract : Contract} {p : Plan} {bases : List Contract} {derived : Contract}
  {bindings : List Binding}

/-- Arguments that mention no parameters of a base are passed on as they are written. -/
theorem supplied_of_written (h : IsPlanned i contract (fun _ => true) p bases derived bindings)
    (hSites : InvokesInherited i (bases ++ [derived])) {base : Contract} (hBase : base ∈ bases)
    {b : Binding} (hGiven : b.IsGiven (bases ++ [derived])) (hFor : b.base = base.name)
    (hPlain : b.inConstructor = false ∨ b.supplier = derived) :
    supplied (suppliesOf i.text contract (bases ++ [derived]) bindings
      (exposedParameters i.text contract bases bindings fun _ => true)) base =
      b.arguments.map fun e => e.span.slice i.text := by
  rw [h.supplied_of_isGiven hSites hBase hGiven hFor]
  refine List.map_congr_left fun e _ => render_of_none _ _ fun x _ => ?_
  rcases hPlain with hPlain | hOwn
  · rw [hPlain]
    rfl
  · rw [hOwn, h.supplied_derived hSites, lastFor?, List.zip_nil_right]
    exact ite_self none

/-- What a base is given by arguments is composed, if what their supplier is given is. -/
theorem composed_of_isGiven (h : IsPlanned i contract (fun _ => true) p bases derived bindings)
    (hSites : InvokesInherited i (bases ++ [derived]))
    (hPlaced : ∀ c ∈ bases ++ [derived], ArgumentsPlaced i.text c) {base : Contract}
    (hBase : base ∈ bases) {b : Binding} (hGiven : b.IsGiven (bases ++ [derived]))
    (hFor : b.base = base.name) :
    let exposed := exposedParameters i.text contract bases bindings fun _ => true
    let supplies := suppliesOf i.text contract (bases ++ [derived]) bindings exposed
    (b.supplier ≠ derived →
      Composed i.text (bases ++ [derived]) derived exposed b.supplier (supplied supplies b.supplier)) →
    Composed i.text (bases ++ [derived]) derived exposed base (supplied supplies base) := by
  intro exposed supplies hSupplier
  have hArguments : ∀ e ∈ b.arguments, e.Placed i.text := by
    obtain ⟨site, hSite, hSome, _⟩ := hGiven.site
    exact hPlaced _ hGiven.supplier site hSite _ hSome
  by_cases hPlain : b.inConstructor = false ∨ b.supplier = derived
  · refine ⟨_, .written hGiven hFor hPlain, ?_⟩
    rw [h.supplied_of_written hSites hBase hGiven hFor hPlain, List.map_map]
    exact List.map_congr_left fun e he => (spelled_phrase b (hArguments e he)).symm
  · rw [not_or, Bool.not_eq_false] at hPlain
    obtain ⟨values, hValues, hSpelled⟩ := hSupplier hPlain.2
    refine ⟨_, .passed hGiven hFor hPlain.1 hPlain.2 hValues, ?_⟩
    rw [h.supplied_of_isGiven hSites hBase hGiven hFor, List.map_map]
    refine List.map_congr_left fun e he => render_eq_spelled b (fun name => ?_) (hArguments e he)
    rw [if_pos hPlain.1, hSpelled, lastFor?_map, Phrase.map_spelled_grouped]

/-- What every base is given is composed along the chain. -/
theorem composed (h : IsPlanned i contract (fun _ => true) p bases derived bindings)
    (hSites : InvokesInherited i (bases ++ [derived]))
    (hPlaced : ∀ c ∈ bases ++ [derived], ArgumentsPlaced i.text c) {base : Contract}
    (hBase : base ∈ bases) :
    let exposed := exposedParameters i.text contract bases bindings fun _ => true
    Composed i.text (bases ++ [derived]) derived exposed base
      (supplied (suppliesOf i.text contract (bases ++ [derived]) bindings exposed) base) := by
  intro exposed
  -- The induction goes from the derived contracts to the basic ones, as suppliers come later.
  suffices hAll : ∀ after before, bases = before ++ after → ∀ base ∈ after,
      Composed i.text (bases ++ [derived]) derived exposed base
        (supplied (suppliesOf i.text contract (bases ++ [derived]) bindings exposed) base) from
    hAll bases [] rfl base hBase
  intro after
  induction after with
  | nil => simp
  | cons c rest ih =>
      intro before hSplit
      have hRest := ih (before ++ [c]) (by simp [hSplit])
      have hc : c ∈ bases := hSplit ▸ List.mem_append_right _ List.mem_cons_self
      rw [List.forall_mem_cons]
      refine ⟨?_, hRest⟩
      by_cases hBound : IsBound (bases ++ [derived]) c
      · obtain ⟨b, hBinding⟩ := Option.isSome_iff_exists.mp ((h.isBound_iff hc).mpr hBound)
        obtain ⟨hGiven, hFor⟩ := (binding?_eq_some_iff h.given).mp hBinding
        refine h.composed_of_isGiven hSites hPlaced hc hGiven hFor fun hOther => hRest _ ?_
        have hInherits := h.inherits_of_isGiven hSites hGiven (List.mem_append_left _ hc) hFor
        have hChain : bases ++ [derived] = before ++ c :: (rest ++ [derived]) := by simp [hSplit]
        have hLater := mem_after_of_transGen (hChain ▸ h.order) (hChain ▸ hGiven.supplier) hInherits
        rcases List.mem_append.mp hLater with hMem | hMem
        · exact hMem
        · exact (hOther (List.mem_singleton.mp hMem)).elim
      · refine ⟨_, .taken hBound, ?_⟩
        rw [h.supplied_of_not_isBound exposed hc hBound, List.map_map]
        exact List.map_congr_left fun x _ => by simp [Piece.spelled]

/-- A base is given as many phrases as its constructor has parameters. -/
theorem length_of_composes (h : IsPlanned i contract (fun _ => true) p bases derived bindings)
    {base : Contract} (hBase : base ∈ bases) {phrases : List Phrase}
    (hComposes : Composes i.text (bases ++ [derived]) derived
      (exposedParameters i.text contract bases bindings fun _ => true) base phrases) :
    phrases.length = (parametersOf base).length := by
  have hComplete {b : Binding} (hGiven : b.IsGiven (bases ++ [derived]))
      (hFor : b.base = base.name) : b.arguments.length = (parametersOf base).length := by
    obtain ⟨d, hd, hName, hLength⟩ :=
      bindingsOf_complete h.given b ((mem_bindingsOf_iff h.given).mpr hGiven)
    rw [hLength, List.inj_on_of_nodup_map h.nodup hd (List.mem_append_left _ hBase)
      (hName.trans hFor)]
  cases hComposes with
  | taken unbound =>
      rw [← h.length_supplied hBase rfl, h.supplied_of_not_isBound _ hBase unbound, List.length_map,
        List.length_map]
  | written given goal _ => rw [List.length_map, hComplete given goal]
  | passed given goal _ _ _ => rw [List.length_map, hComplete given goal]

/-- What the last contract of the chain gives to a base reaches it as it is written. -/
theorem phrases_of_composes (h : IsPlanned i contract (fun _ => true) p bases derived bindings)
    {base : Contract} {phrases : List Phrase} {exposed : List Exposed}
    (hComposes : Composes i.text (bases ++ [derived]) derived exposed base phrases) {b : Binding}
    (hGiven : b.IsGiven (bases ++ [derived])) (hFor : b.base = base.name)
    (hSupplier : b.supplier = derived) : phrases = b.arguments.map (b.phrase i.text) := by
  have hBound : binding? bindings base.name = some b :=
    (binding?_eq_some_iff h.given).mpr ⟨hGiven, hFor⟩
  have hOnly {other : Binding} (hOther : other.IsGiven (bases ++ [derived]))
      (hGoal : other.base = base.name) : other = b :=
    Option.some.inj (((binding?_eq_some_iff h.given).mpr ⟨hOther, hGoal⟩).symm.trans hBound)
  cases hComposes with
  | taken unbound =>
      obtain ⟨site, hSite, hArguments, hName, _⟩ := hGiven.site
      exact (unbound ⟨b.supplier, hGiven.supplier, site, hSite, by simp [hArguments],
        hName.trans hFor⟩).elim
  | written given goal _ => rw [hOnly given goal]
  | passed given goal _ other _ => exact (other (hOnly given goal ▸ hSupplier)).elim

/-- A base that is given an argument has a constructor and is called. -/
theorem exists_call_of_isGiven (h : IsPlanned i contract (fun _ => true) p bases derived bindings)
    (hSites : InvokesInherited i (bases ++ [derived])) {b : Binding}
    (hGiven : b.IsGiven (bases ++ [derived])) {e : Expr} (he : e ∈ b.arguments) :
    ∃ x ∈ constructorsOf bases, b.base = x.1.name := by
  obtain ⟨base, hBase, hFor, hLength⟩ :=
    bindingsOf_complete h.given b ((mem_bindingsOf_iff h.given).mpr hGiven)
  have hLast : base ∈ bases := by
    rcases List.mem_append.mp hBase with hBase | hLast
    · exact hBase
    · obtain rfl := List.mem_singleton.mp hLast
      have hInherits := h.inherits_of_isGiven hSites hGiven hBase hFor.symm
      cases mem_after_of_transGen h.order hGiven.supplier hInherits
  cases hCtor : base.constructor? with
  | none =>
      rw [parametersOf, hCtor, Option.map_none, Option.getD_none, List.length_nil,
        List.length_eq_zero_iff] at hLength
      rw [hLength] at he
      cases he
  | some f => exact ⟨(base, f), mem_constructorsOf_iff.mpr ⟨hLast, hCtor⟩, hFor.symm⟩

/-- All names in the calls are settled, unless the planned contract is not the one that its name stands
for and the latter gives one of its parameters to a base. -/
theorem isSettled_iff (h : IsPlanned i contract (fun _ => true) p bases derived bindings)
    (hSites : InvokesInherited i (bases ++ [derived])) {phrases : Contract → List Phrase} :
    let exposed := exposedParameters i.text contract bases bindings fun _ => true
    (∀ x ∈ constructorsOf bases,
      Composes i.text (bases ++ [derived]) derived exposed x.1 (phrases x.1)) →
    ((∀ x ∈ constructorsOf bases, ∀ phrase ∈ phrases x.1, ∀ piece ∈ phrase,
        piece.IsSettled exposed contract) ↔
      contract = derived ∨ ¬ HandsDown (bases ++ [derived]) derived) := by
  intro exposed hComposes
  rw [handsDown_iff (List.mem_append_right _ (List.mem_singleton_self derived))]
  constructor
  · intro hSettled
    by_contra hNot
    rw [not_or, not_not] at hNot
    obtain ⟨hOther, b, hGiven, hSupplier, e, he, x, hx, hParameter⟩ := hNot
    obtain ⟨call, hCall, hFor⟩ := h.exists_call_of_isGiven hSites hGiven he
    have hPhrases := h.phrases_of_composes (hComposes _ hCall) hGiven hFor hSupplier
    have hMention : Piece.IsSettled exposed contract (.mention x b) :=
      hSettled _ hCall (b.phrase i.text e) (hPhrases ▸ List.mem_map_of_mem he) _
        (mention_mem_phraseFrom _ _ _ hx)
    exact hOther ((hMention hParameter).1.symm.trans hSupplier)
  · intro hCases x hx phrase hPhrase piece hPiece
    have hLength (c : Contract) (phrases : List Phrase)
        (hc : Composes i.text (bases ++ [derived]) derived exposed c phrases)
        (hMem : c ∈ bases ++ [derived]) (hNot : c ≠ derived) :
        phrases.length = (parametersOf c).length := by
      refine h.length_of_composes ?_ hc
      simpa [hNot] using hMem
    cases piece with
    | copied t => trivial
    | exposed name => exact (hComposes x hx).mem_mergedNames contract hPhrase hPiece
    | mention y b =>
        intro hParameter
        obtain ⟨hSupplier, hGiven, e, he, hy⟩ :=
          (hComposes x hx).supplier_of_isParameter hLength hPhrase hPiece hParameter
        rcases hCases with rfl | hNone
        · exact ⟨hSupplier, List.mem_append_right _ (hSupplier ▸ hParameter.2)⟩
        · exact (hNone ⟨b, hGiven, hSupplier, e, he, y, hy, hParameter⟩).elim

/-- Arguments in the header of a base's constructor are passed on with what the call for that base has
in place of its parameters. -/
theorem replaced_of_header (h : IsPlanned i contract (fun _ => true) p bases derived bindings)
    (hSites : InvokesInherited i (bases ++ [derived])) {base : Contract} (hBase : base ∈ bases)
    {b : Binding} (hGiven : b.IsGiven (bases ++ [derived])) (hFor : b.base = base.name)
    (hHeader : b.inConstructor = true) (hOther : b.supplier ≠ derived) :
    let supplies := suppliesOf i.text contract (bases ++ [derived]) bindings
      (exposedParameters i.text contract bases bindings fun _ => true)
    ∃ y ∈ (constructorsOf bases).map (callOf supplies), y.base = b.supplier ∧
      (∀ name, (y.value? name).isSome = true ↔
        name ∈ (parametersOf b.supplier).filterMap Variable.name) ∧
      ((∀ e ∈ b.arguments, e.Placed i.text) → supplied supplies base = b.arguments.map fun e =>
        ((b.phrase i.text e).substitute fun name =>
          (y.value? name).map fun value => [.copied value]).spelled) := by
  intro supplies
  have hSupplier : b.supplier ∈ bases := by
    rcases List.mem_append.mp hGiven.supplier with hMem | hMem
    · exact hMem
    · exact (hOther (List.mem_singleton.mp hMem)).elim
  obtain ⟨f, hf⟩ := hGiven.constructor?_of_header hHeader
  have hParameters : parametersOf b.supplier = f.parameters := by
    rw [parametersOf, hf]
    rfl
  have hCalled : (b.supplier, f) ∈ constructorsOf bases :=
    mem_constructorsOf_iff.mpr ⟨hSupplier, hf⟩
  refine ⟨_, List.mem_map_of_mem hCalled, rfl, fun name => ?_, fun hPlaced => ?_⟩
  · have hLength := h.length_supplied hSupplier rfl
    rw [Initialization.value?, Option.isSome_map, ← not_iff_not, ← lastFor?_eq_none_iff hLength,
      hParameters, Option.not_isSome_iff_eq_none]
    rfl
  · refine (h.supplied_of_isGiven hSites hBase hGiven hFor).trans
      (List.map_congr_left fun e he => render_eq_spelled b (fun name => ?_) (hPlaced e he))
    have hSpelled : (Phrase.spelled ∘ fun value => [Piece.copied value]) = id := by
      funext value
      simp [Piece.spelled]
    rw [if_pos hHeader, hParameters, Option.map_map, hSpelled, Option.map_id_fun]
    rfl

/-- The arguments of all calls are composed along the chain, and it is known when all names in them
are settled. -/
theorem exists_phrases (h : IsPlanned i contract (fun _ => true) p bases derived bindings)
    (hSites : InvokesInherited i (bases ++ [derived]))
    (hPlaced : ∀ c ∈ bases ++ [derived], ArgumentsPlaced i.text c) :
    let exposed := exposedParameters i.text contract bases bindings fun _ => true
    let supplies := suppliesOf i.text contract (bases ++ [derived]) bindings exposed
    ∃ phrases : Contract → List Phrase,
      (∀ c ∈ bases, Composes i.text (bases ++ [derived]) derived exposed c (phrases c) ∧
        supplied supplies c = (phrases c).map Phrase.spelled) ∧
      ((∀ x ∈ constructorsOf bases, ∀ phrase ∈ phrases x.1, ∀ piece ∈ phrase,
          piece.IsSettled exposed contract) ↔
        contract = derived ∨ ¬ HandsDown (bases ++ [derived]) derived) := by
  intro exposed supplies
  have hEach : ∀ c ∈ bases, ∃ phrases, _ := fun c hc => h.composed hSites hPlaced hc
  choose! phrases hPhrases using hEach
  refine ⟨phrases, hPhrases, h.isSettled_iff hSites fun x hx => ?_⟩
  exact (hPhrases x.1 (mem_constructorsOf_iff.mp hx).1).1

end IsPlanned

/-- The calls of a merged constructor pass on what is written for the bases. The chain ends with the
first contract of the planned one's name. -/
structure PassesOn (i : Index) (contract : Contract) (chain : List Contract) (derived : Contract)
    (report : Report) (exposed : List Exposed) (calls : List Initialization) : Prop where
  order : calls.map Initialization.source = constructorsOf chain.dropLast
  reported : report.initializers = calls.map Initialization.text
  /-- The parameters of the merged constructor are those taken over and its own. -/
  taken : List.Forall₂ (fun p x => x.StandsFor i.text p.1.name p.2)
    (openParameters chain fun _ => true) exposed
  declared : report.parameters = exposed.map Exposed.declaration ++
    (parametersOf contract).map fun v => v.span.slice i.text
  /-- Arguments where a base is named, and in the header of the constructor of the last contract of the
  chain, are passed on as they are written. -/
  verbatim : ∀ x ∈ calls, ∀ b : Binding, b.IsGiven chain → b.base = x.base.name →
    (b.inConstructor = false ∨ b.supplier = derived) →
    x.arguments = b.arguments.map fun e => e.span.slice i.text
  /-- In arguments in the header of a base's constructor, its parameters are replaced by what the call
  for that base passes on. -/
  replaced : ∀ x ∈ calls, ∀ b : Binding, b.IsGiven chain → b.base = x.base.name →
    b.inConstructor = true → b.supplier ≠ derived →
    ∃ y ∈ calls, y.base = b.supplier ∧
      (∀ name, (y.value? name).isSome = true ↔
        name ∈ (parametersOf b.supplier).filterMap Variable.name) ∧
      ((∀ e ∈ b.arguments, e.Placed i.text) → x.arguments = b.arguments.map fun e =>
        ((b.phrase i.text e).substitute fun name =>
          (y.value? name).map fun value => [.copied value]).spelled)
  /-- So the arguments of all calls are composed along the chain. Names in them are settled, unless the
  planned contract is another one than that at the end of the chain, and that one gives one of its own
  parameters to a base. -/
  settled : (∀ c ∈ chain, ArgumentsPlaced i.text c) → ∃ phrases : Contract → List Phrase,
    (∀ x ∈ calls, Composes i.text chain derived exposed x.base (phrases x.base) ∧
      x.arguments = (phrases x.base).map Phrase.spelled) ∧
    ((∀ x ∈ calls, ∀ phrase ∈ phrases x.base, ∀ piece ∈ phrase, piece.IsSettled exposed contract) ↔
      contract = derived ∨ ¬ HandsDown chain derived)

/-- Arguments reach every base along the chain of a planned contract. The chain is found by the name of
the contract, so it is that of the first contract of the name. If the planned one is another, it has
parameters of its own, and those of the first that are given to bases stay free in the calls. -/
theorem passesOn_of_plan {i : Index} {contract : Contract} {p : Plan}
    (h : plan i contract (fun _ => true) = .ok p) (hSites : InvokesInherited i p.chain) :
    (∃ derived exposed calls, i.contract? contract.name = some derived ∧
      i.linearize contract.name = .ok p.chain ∧
      PassesOn i contract p.chain derived p.report exposed calls) ∧
      (i.unit.Placed i.text → ∀ c ∈ p.chain, ArgumentsPlaced i.text c) := by
  obtain ⟨bases, derived, bindings, hPlanned⟩ := isPlanned_of_plan h
  rw [hPlanned.chain] at hSites ⊢
  have hTaken := (foldl_expose i.text ((parametersOf contract).filterMap Variable.name)
    ((openParameters (bases ++ [derived]) fun _ => true).map fun p => (p.1.name, p.2))).1
  rw [← hPlanned.exposed_eq, List.forall₂_map_left_iff] at hTaken
  have hInitializers := hPlanned.initializers
  rw [List.filter_true] at hInitializers
  refine ⟨⟨derived, _, _, hPlanned.found, hPlanned.order, ?_, hInitializers, hTaken,
    hPlanned.parameters, ?_, ?_, ?_⟩, fun hUnit c hc => ?_⟩
  · rw [map_source_callOf, List.dropLast_concat]
  · intro x hx b hGiven hFor hPlain
    obtain ⟨source, hSource, rfl⟩ := List.mem_map.mp hx
    exact hPlanned.supplied_of_written hSites (mem_constructorsOf_iff.mp hSource).1 hGiven hFor hPlain
  · intro x hx b hGiven hFor hHeader hOther
    obtain ⟨source, hSource, rfl⟩ := List.mem_map.mp hx
    exact hPlanned.replaced_of_header hSites (mem_constructorsOf_iff.mp hSource).1 hGiven hFor
      hHeader hOther
  · intro hPlaced
    obtain ⟨phrases, hPhrases, hSettled⟩ := hPlanned.exists_phrases hSites hPlaced
    refine ⟨phrases, fun x hx => ?_, ?_⟩
    · obtain ⟨source, hSource, rfl⟩ := List.mem_map.mp hx
      exact hPhrases _ (mem_constructorsOf_iff.mp hSource).1
    · rw [List.forall_mem_map]
      exact hSettled
  · have hFound := Index.contract?_of_mem_linearize hPlanned.order hc
    exact argumentsPlaced_of_placed hUnit (Index.mem_contracts_of_contract? hFound)

/-- Arguments for the first contract are made of a parameter of the second, which the third gives. The
fourth contract has the name of the third. -/
def layered : Index :=
  indexOf ("contract A \x7b constructor(uint x, uint k) \x7b\x7d \x7d " ++
    "contract B is A \x7b constructor(uint y) A(y * 2, cap) \x7b\x7d \x7d " ++
    "contract C is B \x7b constructor(uint z) B(z + 1) \x7b\x7d \x7d " ++
    "contract C \x7b constructor(uint w) \x7b\x7d \x7d")

/-- What is planned for the third contract has the parameter `z` that its calls mention. What is planned
for the fourth has the same calls and no such parameter. -/
theorem layered_passesOn : ∃ third fourth p q,
    layered.contract? "C" = some third ∧ fourth ∈ layered.contracts ∧ fourth ≠ third ∧
    plan layered third (fun _ => true) = .ok p ∧ plan layered fourth (fun _ => true) = .ok q ∧
    p.report.parameters = ["uint z"] ∧ q.report.parameters = ["uint w"] ∧
    p.report.initializers = ["__constructor_A((z + 1) * 2, cap)", "__constructor_B(z + 1)"] ∧
    q.report.initializers = p.report.initializers ∧
    InvokesInherited layered p.chain ∧ (∀ c ∈ p.chain, ArgumentsPlaced layered.text c) ∧
    (∃ exposed calls, PassesOn layered third p.chain third p.report exposed calls) ∧
    ∃ exposed calls, PassesOn layered fourth p.chain third q.report exposed calls ∧
      ¬ (fourth = third ∨ ¬ HandsDown p.chain third) := by
  have hPlans : ∃ third fourth, layered.contract? "C" = some third ∧
      layered.contract? third.name = some third ∧ fourth ∈ layered.contracts ∧ fourth ≠ third ∧
      fourth.name = third.name ∧
      (plan layered third fun _ => true).map (fun p => (p.report.parameters, p.report.initializers)) =
        .ok (["uint z"], ["__constructor_A((z + 1) * 2, cap)", "__constructor_B(z + 1)"]) ∧
      (plan layered fourth fun _ => true).map (fun p => (p.report.parameters, p.report.initializers)) =
        .ok (["uint w"], ["__constructor_A((z + 1) * 2, cap)", "__constructor_B(z + 1)"]) ∧
      (plan layered third fun _ => true).map (fun p => decide ((∀ c ∈ p.chain, ∀ f ∈ c.functions,
        ∀ m ∈ f.modifiers, ∀ base ∈ p.chain, base.name = lastSegment m.name →
          ∃ b ∈ c.bases, layered.contract? b.name = some base) ∧
        (∀ c ∈ p.chain, ArgumentsPlaced layered.text c) ∧ HandsDown p.chain third)) = .ok true := by
    refine ⟨(layered.contract? "C").getD default, layered.contracts.getLast?.getD default, ?_⟩
    decide +kernel
  obtain ⟨third, fourth, hFound, hSelf, hMem, hOther, hName, hThird, hFourth, hTests⟩ := hPlans
  obtain ⟨p, hp, hThird⟩ := Outcome.map_eq_ok_iff.mp hThird
  obtain ⟨q, hq, hFourth⟩ := Outcome.map_eq_ok_iff.mp hFourth
  rw [hp, Outcome.map_eq_ok_iff] at hTests
  obtain ⟨_, ⟨⟩, hTests⟩ := hTests
  obtain ⟨hSites, hPlaced, hHands⟩ := of_decide_eq_true hTests
  rw [Prod.mk.injEq] at hThird hFourth
  have hInherited : InvokesInherited layered p.chain := fun c hc f hf m hm _ base hBase hName =>
    .single (hSites c hc f (List.mem_of_find?_eq_some hf) m hm base hBase hName)
  have hChain : q.chain = p.chain := by
    have hOrder := (initializers_of_plan hq).2.1
    rw [hName, (initializers_of_plan hp).2.1] at hOrder
    exact (Except.ok.inj hOrder).symm
  obtain ⟨⟨derived, exposed, calls, hDerived, _, hPasses⟩, _⟩ := passesOn_of_plan hp hInherited
  obtain rfl : third = derived := Option.some.inj (hSelf.symm.trans hDerived)
  obtain ⟨⟨derived, exposed', calls', hDerived, _, hPasses'⟩, _⟩ :=
    passesOn_of_plan hq (hChain ▸ hInherited)
  rw [hName] at hDerived
  obtain rfl : third = derived := Option.some.inj (hSelf.symm.trans hDerived)
  rw [hChain] at hPasses'
  exact ⟨third, fourth, p, q, hFound, hMem, hOther, hp, hq, hThird.1, hFourth.1, hThird.2,
    hFourth.2.trans hThird.2.symm, hInherited, hPlaced, ⟨exposed, calls, hPasses⟩, exposed', calls',
    hPasses', by simp [hOther, hHands]⟩

end Construction

end SolNorm
