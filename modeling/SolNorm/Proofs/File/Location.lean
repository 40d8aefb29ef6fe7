import SolNorm.File.Resolver
import SolNorm.Proofs.Outcome

/-!
Where paths lead. A path is a walk from a directory, and two paths lead to the same place if they do so
from every directory. For each place there is a shortest path: some steps up, then names. The normal
form of a path keeps the names, but of the steps up only whether their number is odd.
-/

namespace SolNorm

namespace Path

/-- One step from a directory, which is given by the names on the way to it from the root. Above the
root there is only the root. -/
def step (directory : List String) (name : String) : List String :=
  if name = "." then directory
  else if name = ".." then directory.dropLast
  else directory ++ [name]

/-- Where a path leads from a directory. -/
def destination (p : Path) (start : List String) : List String :=
  p.names.foldl step (if p.isAbsolute then [] else start)

/-- Two paths lead to the same place, wherever they are used from. -/
def SameLocation (p q : Path) : Prop := ∀ start, p.destination start = q.destination start

/-- A path leads where another one does, and no path with fewer names does. -/
structure IsShortest (q p : Path) : Prop where
  location : q.SameLocation p
  least : ∀ r : Path, r.SameLocation p → q.names.length ≤ r.names.length

/-- What a walk comes to: the steps up from where it starts and the names that follow. -/
structure Trail where
  climbs : Nat
  names : List String
  deriving DecidableEq, Repr

/-- A step up takes a name back, or it climbs where there is none. -/
def Trail.step (t : Trail) (name : String) : Trail :=
  if name = "." then t
  else if name = ".." then
    if t.names = [] then ⟨t.climbs + 1, []⟩ else ⟨t.climbs, t.names.dropLast⟩
  else ⟨t.climbs, t.names ++ [name]⟩

/-- The trail of a walk. -/
def Trail.ofNames (names : List String) : Trail := names.foldl step ⟨0, []⟩

/-- The trail of a path. -/
def trail (p : Path) : Trail := .ofNames p.names

/-- How far a path climbs above its start. No path climbs above the root. -/
def climb (p : Path) : Nat := if p.isAbsolute then 0 else p.trail.climbs

/-- A path of some steps up and some names. -/
def ofTrail (isAbsolute : Bool) (climbs : Nat) (names : List String) : Path :=
  ⟨isAbsolute, List.replicate climbs ".." ++ names⟩

/-- A name that is no dots. -/
def IsName (name : String) : Prop := name ≠ "." ∧ name ≠ ".."

section

variable {p q : Path} {t : Trail} {name : String}

/-- What a step can do to a trail. -/
theorem Trail.step_cases (t : Trail) (name : String) :
    (name = "." ∧ t.step name = t) ∨
      (name = ".." ∧ t.names = [] ∧ t.step name = ⟨t.climbs + 1, []⟩) ∨
      (name = ".." ∧ ∃ front last, t.names = front ++ [last] ∧ t.step name = ⟨t.climbs, front⟩) ∨
      (IsName name ∧ t.step name = ⟨t.climbs, t.names ++ [name]⟩) := by
  unfold step
  by_cases hDot : name = "."
  · exact .inl ⟨hDot, if_pos hDot⟩
  · by_cases hUp : name = ".."
    · rw [if_neg hDot, if_pos hUp]
      rcases List.eq_nil_or_concat' t.names with hNil | ⟨front, last, hNames⟩
      · exact .inr (.inl ⟨hUp, hNil, if_pos hNil⟩)
      · refine .inr (.inr (.inl ⟨hUp, front, last, hNames, ?_⟩))
        rw [if_neg (by simp [hNames]), hNames, List.dropLast_concat]
    · exact .inr (.inr (.inr ⟨⟨hDot, hUp⟩, by rw [if_neg hDot, if_neg hUp]⟩))

/-- The step of the walk: it follows the trail from every directory. -/
theorem step_rdrop (start : List String) (t : Trail) (name : String) :
    step (start.rdrop t.climbs ++ t.names) name =
      start.rdrop (t.step name).climbs ++ (t.step name).names := by
  rcases t.step_cases name with ⟨rfl, hStep⟩ | ⟨rfl, hNil, hStep⟩ | ⟨rfl, front, last, hNames, hStep⟩ |
    ⟨hName, hStep⟩
  · rw [hStep]
    rfl
  · rw [hStep, hNil, List.append_nil, List.append_nil]
    simp [step, List.rdrop, List.dropLast_eq_take, List.take_take]
    omega
  · rw [hStep, hNames, ← List.append_assoc]
    simp [step]
  · rw [hStep, step, if_neg hName.1, if_neg hName.2, List.append_assoc]

/-- The run of the walk. -/
theorem destination_eq (p : Path) (start : List String) :
    p.destination start =
      (if p.isAbsolute then [] else start).rdrop p.trail.climbs ++ p.trail.names := by
  have hRun (names : List String) (base : List String) (t : Trail) :
      names.foldl step (base.rdrop t.climbs ++ t.names) =
        base.rdrop (names.foldl Trail.step t).climbs ++ (names.foldl Trail.step t).names := by
    induction names generalizing t with
    | nil => rfl
    | cons name rest ih => rw [List.foldl_cons, step_rdrop, ih, List.foldl_cons]
  have hStart := hRun p.names (if p.isAbsolute then [] else start) ⟨0, []⟩
  simpa [destination, trail, Trail.ofNames] using hStart

/-- The step of the normal form: of the steps up only whether their number is odd is kept. -/
theorem walk_replicate (t : Trail) (name : String) :
    walk (List.replicate (t.climbs % 2) ".." ++ t.names) name =
      List.replicate ((t.step name).climbs % 2) ".." ++ (t.step name).names := by
  rcases t.step_cases name with ⟨rfl, hStep⟩ | ⟨rfl, hNil, hStep⟩ | ⟨rfl, front, last, hNames, hStep⟩ |
    ⟨hName, hStep⟩
  · rw [hStep]
    rfl
  · rw [hStep, hNil]
    rcases Nat.mod_two_eq_zero_or_one t.climbs with hEven | hOdd
    · simp [walk, hEven, Nat.succ_mod_two_eq_one_iff.mpr hEven]
    · simp [walk, hOdd, Nat.succ_mod_two_eq_zero_iff.mpr hOdd]
  · rw [hStep, hNames, ← List.append_assoc]
    simp [walk]
  · rw [hStep, walk]
    simp [hName.1, hName.2]

/-- The run of the normal form. -/
theorem normalize_eq (p : Path) :
    p.normalize = ofTrail p.isAbsolute (p.trail.climbs % 2) p.trail.names := by
  have hRun (names : List String) (t : Trail) :
      names.foldl walk (List.replicate (t.climbs % 2) ".." ++ t.names) =
        List.replicate ((names.foldl Trail.step t).climbs % 2) ".." ++
          (names.foldl Trail.step t).names := by
    induction names generalizing t with
    | nil => rfl
    | cons name rest ih => rw [List.foldl_cons, walk_replicate, ih, List.foldl_cons]
  exact congrArg (Path.mk p.isAbsolute) (hRun p.names ⟨0, []⟩)

/-- The names of a trail are names of the path, and none is dots. -/
theorem mem_trail (h : name ∈ p.trail.names) : name ∈ p.names ∧ IsName name := by
  have hRun (names : List String) (t : Trail) (hName : name ∈ (names.foldl Trail.step t).names) :
      name ∈ t.names ∨ name ∈ names ∧ IsName name := by
    induction names generalizing t with
    | nil => exact .inl hName
    | cons other rest ih =>
        rcases ih _ hName with hStep | ⟨hRest, hIs⟩
        · rcases t.step_cases other with ⟨rfl, hSame⟩ | ⟨rfl, -, hSame⟩ |
            ⟨rfl, front, last, hNames, hSame⟩ | ⟨hIs, hSame⟩ <;> rw [hSame] at hStep
          · exact .inl hStep
          · cases hStep
          · exact .inl (hNames ▸ List.mem_append_left _ hStep)
          · rcases List.mem_append.mp hStep with hOld | hNew
            · exact .inl hOld
            · obtain rfl := List.mem_singleton.mp hNew
              exact .inr ⟨List.mem_cons_self, hIs⟩
        · exact .inr ⟨List.mem_cons_of_mem _ hRest, hIs⟩
  exact (hRun p.names ⟨0, []⟩ h).resolve_left (by simp)

/-- A path of steps up and names is its own trail. -/
theorem trail_ofTrail (isAbsolute : Bool) (climbs : Nat) {names : List String}
    (h : ∀ name ∈ names, IsName name) : (ofTrail isAbsolute climbs names).trail = ⟨climbs, names⟩ := by
  have hClimbs : (List.replicate climbs "..").foldl Trail.step ⟨0, []⟩ = ⟨climbs, []⟩ := by
    induction climbs with
    | zero => rfl
    | succ n ih => simp [List.replicate_succ', ih, Trail.step]
  have hNames (done : List String) :
      names.foldl Trail.step ⟨climbs, done⟩ = ⟨climbs, done ++ names⟩ := by
    induction names generalizing done with
    | nil => simp
    | cons name rest ih =>
        obtain ⟨hName, hRest⟩ := List.forall_mem_cons.mp h
        rw [List.foldl_cons, Trail.step, if_neg hName.1, if_neg hName.2, ih hRest]
        simp
  rw [trail, ofTrail, Trail.ofNames, List.foldl_append, hClimbs, hNames]
  rfl

theorem isName_trail (p : Path) : ∀ name ∈ p.trail.names, IsName name :=
  fun _ h => (mem_trail h).2

/-- A path that was made of a trail gives the trail back. -/
theorem ofTrail_inj {a b : Bool} {m n : Nat} {names others : List String}
    (hNames : ∀ name ∈ names, IsName name) (hOthers : ∀ name ∈ others, IsName name) :
    ofTrail a m names = ofTrail b n others ↔ a = b ∧ m = n ∧ names = others := by
  refine ⟨fun h => ⟨congrArg isAbsolute h, ?_⟩, fun ⟨hFirst, hSecond, hThird⟩ => ?_⟩
  · have hTrail := congrArg trail h
    rw [trail_ofTrail a m hNames, trail_ofTrail b n hOthers] at hTrail
    exact ⟨congrArg Trail.climbs hTrail, congrArg Trail.names hTrail⟩
  · rw [hFirst, hSecond, hThird]

/-- Relative paths that lead to the same place climb as far: a path that climbs less keeps a name of
the directory from which it starts, whatever that name is. -/
theorem climbs_le_of_sameLocation (h : p.SameLocation q) (hp : p.isAbsolute = false)
    (hq : q.isAbsolute = false) : q.trail.climbs ≤ p.trail.climbs := by
  by_contra hLess
  obtain ⟨kept, hKept⟩ := Nat.exists_eq_add_one_of_ne_zero
    (by omega : q.trail.climbs - p.trail.climbs ≠ 0)
  have hHead (name : String) : q.trail.names.head? = some name := by
    have hSame := h (List.replicate q.trail.climbs name)
    simp only [destination_eq, hp, hq] at hSame
    simp only [Bool.false_eq_true, if_false, List.rdrop, List.length_replicate, Nat.sub_self,
      List.take_replicate, Nat.zero_min, hKept,
      Nat.min_eq_left (by omega : kept + 1 ≤ q.trail.climbs)] at hSame
    rw [← show _ = q.trail.names from hSame]
    rfl
  exact absurd (Option.some.inj ((hHead "a").symm.trans (hHead "b"))) (by decide)

/-- The place to which a path leads is known by how far the path climbs and by the names that follow. -/
theorem sameLocation_iff :
    p.SameLocation q ↔
      p.isAbsolute = q.isAbsolute ∧ p.climb = q.climb ∧ p.trail.names = q.trail.names := by
  have hMixed {p q : Path} (hp : p.isAbsolute = true) (hq : q.isAbsolute = false) :
      ¬ p.SameLocation q := by
    intro h
    -- From a directory that is deep enough, the relative path does not come near to the root.
    have hSame := congrArg List.length
      (h (List.replicate (p.trail.names.length + q.trail.climbs + 1) ""))
    simp [destination_eq, hp, hq, List.rdrop] at hSame
    omega
  constructor
  · intro h
    have hNames := h []
    simp only [destination_eq, ite_self, List.rdrop_nil, List.nil_append] at hNames
    unfold climb
    cases hp : p.isAbsolute with
    | true =>
        cases hq : q.isAbsolute with
        | true => exact ⟨rfl, rfl, hNames⟩
        | false => exact (hMixed hp hq h).elim
    | false =>
        cases hq : q.isAbsolute with
        | true => exact (hMixed hq hp fun start => (h start).symm).elim
        | false =>
            exact ⟨rfl, Nat.le_antisymm (climbs_le_of_sameLocation (fun start => (h start).symm) hq hp)
              (climbs_le_of_sameLocation h hp hq), hNames⟩
  · rintro ⟨hSame, hClimb, hNames⟩ start
    unfold climb at hClimb
    rw [destination_eq, destination_eq, hNames, ← hSame]
    rw [← hSame] at hClimb
    split at hClimb
    · rw [if_pos ‹_›, List.rdrop_nil, List.rdrop_nil]
    · rw [hClimb]

theorem Trail.ofNames_concat (names : List String) (name : String) :
    ofNames (names ++ [name]) = (ofNames names).step name := by
  simp [ofNames]

/-- A trail is no longer than the walk. -/
theorem Trail.length_ofNames_le (names : List String) :
    (ofNames names).climbs + (ofNames names).names.length ≤ names.length := by
  induction names using List.reverseRecOn with
  | nil => exact Nat.le_refl 0
  | append_singleton names name ih =>
      rw [ofNames_concat, List.length_append, List.length_singleton]
      rcases (ofNames names).step_cases name with ⟨-, hStep⟩ | ⟨-, hNil, hStep⟩ |
        ⟨-, front, last, hNames, hStep⟩ | ⟨-, hStep⟩ <;> rw [hStep]
      · omega
      · simp only [hNil, List.length_nil] at ih ⊢
        omega
      · simp only [hNames, List.length_append] at ih ⊢
        omega
      · simp only [List.length_append, List.length_singleton]
        omega

/-- A walk that is no longer than its trail takes nothing back. -/
theorem Trail.eq_of_length_le {names : List String}
    (h : names.length ≤ (ofNames names).climbs + (ofNames names).names.length) :
    names = List.replicate (ofNames names).climbs ".." ++ (ofNames names).names := by
  induction names using List.reverseRecOn with
  | nil => rfl
  | append_singleton names name ih =>
      have hLe := length_ofNames_le names
      rw [ofNames_concat, List.length_append, List.length_singleton] at h
      rw [ofNames_concat]
      -- Every step made the trail longer, the last one included.
      rcases (ofNames names).step_cases name with ⟨-, hStep⟩ | ⟨hUp, hNil, hStep⟩ |
        ⟨-, front, last, hNames, hStep⟩ | ⟨-, hStep⟩ <;> rw [hStep] at h ⊢
      · omega
      · simp only [hNil, List.length_nil, List.append_nil] at h ih ⊢
        rw [List.replicate_succ', ← ih (by omega), hUp]
      · simp only [hNames, List.length_append] at h hLe
        omega
      · simp only [List.length_append, List.length_singleton] at h
        rw [← List.append_assoc, ← ih (by omega)]

/-- The shortest path to the place to which a path leads. -/
theorem isShortest_iff : q.IsShortest p ↔ q = ofTrail p.isAbsolute p.climb p.trail.names := by
  have hSame : (ofTrail p.isAbsolute p.climb p.trail.names).SameLocation p := by
    have hTrail := trail_ofTrail p.isAbsolute p.climb p.isName_trail
    refine sameLocation_iff.mpr ⟨rfl, ?_, by rw [hTrail]⟩
    cases hp : p.isAbsolute <;> simp [climb, ofTrail, hp] at hTrail ⊢
    exact congrArg Trail.climbs hTrail
  have hLength : (ofTrail p.isAbsolute p.climb p.trail.names).names.length =
      p.climb + p.trail.names.length := by simp [ofTrail]
  have hClimb (r : Path) : r.climb ≤ r.trail.climbs := by
    unfold climb
    split <;> omega
  constructor
  · rintro ⟨hLocation, hLeast⟩
    have hLe := hLeast _ hSame
    obtain ⟨hAbsolute, hClimbs, hNames⟩ := sameLocation_iff.mp hLocation
    rw [hLength, ← hClimbs, ← hNames] at hLe
    have hWalk : q.trail.climbs + q.trail.names.length ≤ q.names.length := Trail.length_ofNames_le _
    have hOwn := hClimb q
    have hForm : q.names = List.replicate q.trail.climbs ".." ++ q.trail.names :=
      Trail.eq_of_length_le (show _ ≤ q.trail.climbs + q.trail.names.length by omega)
    have hExact : q.trail.climbs = q.climb := by omega
    rw [← hAbsolute, ← hClimbs, ← hNames, ofTrail, ← hExact, ← hForm]
  · rintro rfl
    refine ⟨hSame, fun r hr => ?_⟩
    obtain ⟨-, hClimbs, hNames⟩ := sameLocation_iff.mp hr
    have hWalk : r.trail.climbs + r.trail.names.length ≤ r.names.length := Trail.length_ofNames_le _
    have hOwn := hClimb r
    rw [hLength, ← hClimbs, ← hNames]
    omega

/-- Of the steps above its start, a normal form keeps only whether their number is even. -/
theorem normalize_eq_iff :
    p.normalize = q.normalize ↔ p.isAbsolute = q.isAbsolute ∧
      p.trail.climbs % 2 = q.trail.climbs % 2 ∧ p.trail.names = q.trail.names := by
  rw [normalize_eq, normalize_eq, ofTrail_inj p.isName_trail q.isName_trail]

theorem normalize_normalize (p : Path) : p.normalize.normalize = p.normalize := by
  rw [normalize_eq p, normalize_eq, trail_ofTrail _ _ p.isName_trail, Nat.mod_mod]
  rfl

/-- Two relative paths with the same names behind their steps up, of which one climbs further by an even
number of steps. -/
structure Conflated (p q : Path) : Prop where
  relative : p.isAbsolute = false ∧ q.isAbsolute = false
  names : p.trail.names = q.trail.names
  climbs : p.trail.climbs ≠ q.trail.climbs
  parity : p.trail.climbs % 2 = q.trail.climbs % 2

/-- Two absolute paths with the same names behind their steps up, of which one steps up at the root more
often by an odd number of steps. -/
structure Parted (p q : Path) : Prop where
  absolute : p.isAbsolute = true ∧ q.isAbsolute = true
  names : p.trail.names = q.trail.names
  parity : p.trail.climbs % 2 ≠ q.trail.climbs % 2

/-- The paths to different places that have the same normal form. -/
theorem conflated_iff : p.Conflated q ↔ p.normalize = q.normalize ∧ ¬ p.SameLocation q := by
  rw [normalize_eq_iff, sameLocation_iff, climb, climb]
  constructor
  · rintro ⟨⟨hp, hq⟩, hNames, hClimbs, hParity⟩
    refine ⟨⟨hp.trans hq.symm, hParity, hNames⟩, fun hSame => hClimbs ?_⟩
    simpa [hp, hq] using hSame.2.1
  · rintro ⟨⟨hSame, hParity, hNames⟩, hApart⟩
    cases hp : p.isAbsolute with
    | true => exact absurd ⟨hSame, by simp [← hSame, hp], hNames⟩ hApart
    | false =>
        rw [hp] at hSame
        refine ⟨⟨hp, hSame.symm⟩, hNames, fun hClimbs => hApart ?_, hParity⟩
        exact ⟨hp.trans hSame, by simp [hClimbs, hp, ← hSame], hNames⟩

/-- The paths to one place that have different normal forms. -/
theorem parted_iff : p.Parted q ↔ p.SameLocation q ∧ p.normalize ≠ q.normalize := by
  rw [ne_eq, normalize_eq_iff, sameLocation_iff, climb, climb]
  constructor
  · rintro ⟨⟨hp, hq⟩, hNames, hParity⟩
    exact ⟨⟨hp.trans hq.symm, by simp [hp, hq], hNames⟩, fun hSame => hParity hSame.2.1⟩
  · rintro ⟨⟨hSame, hClimbs, hNames⟩, hApart⟩
    cases hp : p.isAbsolute with
    | true =>
        rw [hp] at hSame
        exact ⟨⟨hp, hSame.symm⟩, hNames, fun hParity => hApart ⟨hp.trans hSame, hParity, hNames⟩⟩
    | false =>
        have hEqual : p.trail.climbs = q.trail.climbs := by simpa [← hSame, hp] using hClimbs
        exact absurd ⟨hSame, by rw [hEqual], hNames⟩ hApart

/-- The normal form is the shortest path unless too many steps up are lost, or one is left at the
root. -/
theorem isShortest_normalize_iff :
    p.normalize.IsShortest p ↔
      if p.isAbsolute then p.trail.climbs % 2 = 0 else p.trail.climbs ≤ 1 := by
  rw [isShortest_iff, normalize_eq, ofTrail_inj p.isName_trail p.isName_trail, climb]
  split <;> simp

end

end Path

end SolNorm
