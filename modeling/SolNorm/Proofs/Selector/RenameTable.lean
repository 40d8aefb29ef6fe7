import SolNorm.Proofs.Selector.Families
import SolNorm.Selector.Collision

/-!
What a table of new names says. Only whole families are given new names, and a family is given a name
only if no function of other types has it. So a new name belongs to one signature, it is none of the
names it replaces, and it is clear of some contract's surroundings.
-/

namespace SolNorm

open Outline

namespace Renames

/-- The name that a definition has in the end: the new one, or else its own. -/
def nameOf (r : Renames) (d : FunctionRef) : String := (r.find? d.key).getD d.function.name

/-- The new name of a definition is the name that another one keeps. -/
def Captures (r : Renames) (d e : FunctionRef) : Prop :=
  r.find? d.key = some e.function.name ∧ r.find? e.key = none

/-- Every key with a new name in one table has a new name in the other. -/
def Within (r r' : Renames) : Prop := ∀ k, (r.find? k).isSome → (r'.find? k).isSome

theorem Within.trans {r r' r'' : Renames} (h : r.Within r') (h' : r'.Within r'') : r.Within r'' :=
  fun k hk => h' k (h k hk)

/-- The first entry hides later ones with its key. -/
theorem find?_cons (e : Rename) (r : Renames) (k : FunctionKey) :
    find? (e :: r) k = if k = e.key then some e.name else find? r k := by
  by_cases h : k = e.key
  · simp [find?, h]
  · have h' : ¬ e.key = k := fun hSame => h hSame.symm
    simp [find?, h, h']

/-- A name that is put in is found for its key, and nothing changes for the others. -/
theorem find?_insert (new : Rename) (r : Renames) (k : FunctionKey) :
    find? (insert new r) k = if k = new.key then some new.name else find? r k := by
  induction r with
  | nil => exact find?_cons new [] k
  | cons e rest ih =>
      unfold insert
      split
      · rename_i hSame
        rw [find?_cons, find?_cons, eq_of_beq hSame]
        split <;> rfl
      · rename_i hOther
        split
        · exact find?_cons new (e :: rest) k
        · rw [find?_cons, find?_cons, ih]
          -- The entry in front has another key than the new one.
          split
          · rename_i hHere
            rw [if_neg]
            intro hNew
            exact hOther (by simp [← hHere, hNew])
          · rfl

/-- A name that is found is one of those in the table. -/
theorem mem_names_of_find? {r : Renames} {k : FunctionKey} {n : String}
    (h : r.find? k = some n) : n ∈ r.map Rename.name := by
  obtain ⟨e, he, rfl⟩ := Option.map_eq_some_iff.mp h
  exact List.mem_map_of_mem (List.mem_of_find?_eq_some he)

end Renames

namespace Collision

/-- A family is given a new name by giving it to the keys of all its definitions. -/
theorem find?_of_renameFamily {r r' : Renames} {name : String} {f : Family}
    (h : renameFamily r name f = .ok r') (k : FunctionKey) :
    r'.find? k = if k ∈ f.definitions.map FunctionRef.key then some name else r.find? k := by
  unfold renameFamily at h
  generalize f.definitions = definitions at h
  induction definitions generalizing r with
  | nil =>
      rw [List.foldlM_nil, Outcome.pure_eq_ok_iff] at h
      simp [h]
  | cons d rest ih =>
      rw [List.foldlM_cons, Outcome.bind_eq_ok_iff] at h
      obtain ⟨middle, hFirst, hRest⟩ := h
      have hMiddle : middle.find? k = if k = d.key then some name else r.find? k := by
        unfold rename at hFirst
        split at hFirst
        · cases hFirst
          exact Renames.find?_insert _ _ _
        · cases hFirst
      rw [ih hRest, hMiddle]
      by_cases hKey : k = d.key <;> simp [hKey]

/-- The keys of different families along a chain are different, so a name that is given to one of them
leaves the others as they are. -/
theorem find?_renameFamily_of_ne {chain : List Contract} {r r' : Renames} {name : String}
    {f g : Family} {d : FunctionRef} (hf : f ∈ familiesOf chain) (hg : g ∈ familiesOf chain)
    (hNe : g ≠ f) (hd : d ∈ g.definitions) (h : renameFamily r name f = .ok r') :
    r'.find? d.key = r.find? d.key := by
  rw [find?_of_renameFamily h, if_neg]
  intro hKey
  obtain ⟨e, he, hKey⟩ := List.mem_map.mp hKey
  obtain ⟨hName, hTypes⟩ := ((familiesOf_spec chain).coherent g hg).key hd
  obtain ⟨hName', hTypes'⟩ := ((familiesOf_spec chain).coherent f hf).key he
  rw [hKey] at hName' hTypes'
  exact hNe (family_unique hg hf (hName.symm.trans hName') (hTypes.symm.trans hTypes'))

/-- All definitions of the family have new names. -/
def Settled (r : Renames) (f : Family) : Prop :=
  ∀ d ∈ f.definitions, (r.find? d.key).isSome

theorem Settled.mono {r r' : Renames} {f : Family} (h : Settled r f) (hWithin : r.Within r') :
    Settled r' f :=
  fun d hd => hWithin d.key (h d hd)

theorem within_of_renameFamily {r r' : Renames} {name : String} {f : Family}
    (h : renameFamily r name f = .ok r') : r.Within r' := by
  intro k hk
  rw [find?_of_renameFamily h]
  split
  · rfl
  · exact hk

/-- All definitions of a renamed family have its new name. -/
theorem settled_of_renameFamily {r r' : Renames} {name : String} {f : Family}
    (h : renameFamily r name f = .ok r') : Settled r' f := by
  intro d hd
  rw [find?_of_renameFamily h, if_pos (List.mem_map_of_mem hd)]
  rfl

/-- A family inherits no name if none of its definitions has one. -/
theorem inheritedName?_eq_none_iff {r : Renames} {f : Family} :
    inheritedName? r f = none ↔ ∀ d ∈ f.definitions, r.find? d.key = none :=
  List.findSome?_eq_none_iff

/-- A family that has no new name in a table has none in a smaller one. -/
theorem inheritedName?_eq_none_of_within {r r' : Renames} {f : Family} (h : r.Within r')
    (hNone : inheritedName? r' f = none) : inheritedName? r f = none := by
  rw [inheritedName?_eq_none_iff] at hNone ⊢
  intro d hd
  cases hFind : r.find? d.key with
  | none => rfl
  | some n =>
      have hSome := h d.key (by rw [hFind]; rfl)
      rw [hNone d hd] at hSome
      cases hSome

/-- A name is clear of a contract if no contract that inherits it sees a function of that name. -/
def ClearOf (i : Index) (c : Contract) (name : String) : Prop :=
  ∀ other ∈ i.contracts, ∀ chain, i.linearize other.name = .ok chain →
    c.name ∈ chain.map Contract.name → ∀ a ∈ chain, ∀ g ∈ a.functions, g.name ≠ name

/-- What holds of a new name for functions of an old name and of some types, wherever it is
given. -/
structure Chosen (i : Index) (old : String) (types : List String) (name : String) : Prop where
  moves : name ≠ old
  extended : ∃ n, name = Renaming.candidate (Renaming.extend old types) n
  clear : ∃ p ∈ i.contracts, ClearOf i p name

/-- What holds of a table at all times: a new name belongs to one old name and one list of types, and
it has been chosen for them. -/
structure Sound (i : Index) (r : Renames) : Prop where
  separates : ∀ {a b : FunctionKey} {n : String}, r.find? a = some n → r.find? b = some n →
    a.name = b.name ∧ a.types = b.types
  chosen : ∀ {k : FunctionKey} {n : String}, r.find? k = some n → Chosen i k.name k.types n

theorem Sound.empty (i : Index) : Sound i [] where
  separates h := by cases h
  chosen h := by cases h

/-- A table stays sound when a family is given a name that is chosen for it and that no function of
another signature has. -/
theorem Sound.rename {i : Index} {r r' : Renames} {f : Family} {name : String} (h : Sound i r)
    (hFamily : f.Coherent) (hChosen : Chosen i f.name f.types name)
    (hKin : ∀ k, r.find? k = some name → k.name = f.name ∧ k.types = f.types)
    (hRun : renameFamily r name f = .ok r') : Sound i r' := by
  -- A key in the new table belongs to the family and has the name, or it was there before.
  have hKey {k : FunctionKey} {n : String} (hFind : r'.find? k = some n) :
      (n = name ∧ k.name = f.name ∧ k.types = f.types) ∨ r.find? k = some n := by
    rw [find?_of_renameFamily hRun] at hFind
    split at hFind
    · rename_i hMem
      obtain ⟨d, hd, rfl⟩ := List.mem_map.mp hMem
      exact .inl ⟨(Option.some.inj hFind).symm, hFamily.key hd⟩
    · exact .inr hFind
  constructor
  · intro a b n ha hb
    rcases hKey ha with ⟨rfl, hName, hTypes⟩ | ha
    · have hOther : b.name = f.name ∧ b.types = f.types := by
        rcases hKey hb with ⟨_, hb⟩ | hb
        · exact hb
        · exact hKin b hb
      exact ⟨hName.trans hOther.1.symm, hTypes.trans hOther.2.symm⟩
    · rcases hKey hb with ⟨rfl, hName, hTypes⟩ | hb
      · exact ⟨(hKin a ha).1.trans hName.symm, (hKin a ha).2.trans hTypes.symm⟩
      · exact h.separates ha hb
  · intro k n hk
    rcases hKey hk with ⟨rfl, hName, hTypes⟩ | hk
    · rw [hName, hTypes]
      exact hChosen
    · exact h.chosen hk

/-- The name that a family inherits is chosen for it, and no function of another signature has it. -/
theorem Sound.inherited {i : Index} {r : Renames} {f : Family} {name : String} (h : Sound i r)
    (hFamily : f.Coherent) (hName : inheritedName? r f = some name) :
    Chosen i f.name f.types name ∧
      ∀ k, r.find? k = some name → k.name = f.name ∧ k.types = f.types := by
  obtain ⟨d, hd, hFind⟩ := List.exists_of_findSome?_eq_some hName
  obtain ⟨hOwn, hTypes⟩ := hFamily.key hd
  constructor
  · rw [← hOwn, ← hTypes]
    exact h.chosen hFind
  · intro k hk
    rw [← hOwn, ← hTypes]
    exact h.separates hk hFind

/-- Two functions of different signatures have the same name in the end exactly when one of them
captures the name of the other, unless they had the same name before and both keep it. -/
theorem Sound.nameOf_eq_iff {i : Index} {r : Renames} {d e : FunctionRef} (h : Sound i r)
    (hOther : ¬ (d.key.name = e.key.name ∧ d.key.types = e.key.types))
    (hApart : d.function.name = e.function.name → ¬ (r.find? d.key = none ∧ r.find? e.key = none)) :
    r.nameOf d = r.nameOf e ↔ r.Captures d e ∨ r.Captures e d := by
  unfold Renames.nameOf
  constructor
  · intro hSame
    cases hd : r.find? d.key with
    | none =>
        cases he : r.find? e.key with
        | none =>
            rw [hd, he] at hSame
            exact absurd ⟨hd, he⟩ (hApart hSame)
        | some n =>
            rw [hd, he] at hSame
            exact .inr ⟨he.trans (congrArg some hSame.symm), hd⟩
    | some n =>
        cases he : r.find? e.key with
        | none =>
            rw [hd, he] at hSame
            exact .inl ⟨hd.trans (congrArg some hSame), he⟩
        | some n' =>
            rw [hd, he, Option.getD_some, Option.getD_some] at hSame
            subst hSame
            exact absurd (h.separates hd he) hOther
  · rintro (⟨hNew, hOld⟩ | ⟨hNew, hOld⟩)
    · rw [hNew, hOld, Option.getD_some, Option.getD_none]
    · rw [hNew, hOld, Option.getD_some, Option.getD_none]

/-- Two functions of one name but of other types have different names in the end if one of them has
a new name. -/
theorem Sound.nameOf_ne {i : Index} {r : Renames} {d e : FunctionRef} (h : Sound i r)
    (hName : d.function.name = e.function.name)
    (hTypes : d.function.parameterTypes ≠ e.function.parameterTypes)
    (hNew : ¬ (r.find? d.key = none ∧ r.find? e.key = none)) : r.nameOf d ≠ r.nameOf e := by
  intro hSame
  rcases (h.nameOf_eq_iff (fun hBoth => hTypes hBoth.2) fun _ => hNew).mp hSame with
    ⟨hFind, _⟩ | ⟨hFind, _⟩
  · exact (h.chosen hFind).moves hName.symm
  · exact (h.chosen hFind).moves hName

end Collision

end SolNorm
