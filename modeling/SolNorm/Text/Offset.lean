/-!
Byte offsets into a text. A text is a list of characters; every offset that the library reports
counts the bytes of its UTF-8 form. An offset is a boundary of a text when it does not fall inside
a character and does not exceed the text.
-/

namespace SolNorm.Text

/-- The number of bytes that the characters take in UTF-8. -/
def byteSize : List Char → Nat
  | [] => 0
  | c :: cs => c.utf8Size + byteSize cs

@[simp] theorem byteSize_nil : byteSize [] = 0 := rfl

@[simp] theorem byteSize_cons (c : Char) (cs : List Char) :
    byteSize (c :: cs) = c.utf8Size + byteSize cs := rfl

@[simp] theorem byteSize_append (xs ys : List Char) :
    byteSize (xs ++ ys) = byteSize xs + byteSize ys := by
  induction xs with
  | nil => simp
  | cons c cs ih => simp [ih, Nat.add_assoc]

/-- The characters before and after a byte offset. There are none when the offset falls inside a
character or beyond the text. -/
def splitAt? : List Char → Nat → Option (List Char × List Char)
  | cs, 0 => some ([], cs)
  | [], _ + 1 => none
  | c :: cs, n + 1 =>
    if c.utf8Size ≤ n + 1 then
      (splitAt? cs (n + 1 - c.utf8Size)).map fun (before, after) => (c :: before, after)
    else none

@[simp] theorem splitAt?_zero (cs : List Char) : splitAt? cs 0 = some ([], cs) := by
  cases cs <;> rfl

/-- A split loses nothing: its two parts give the text back, and the first takes as many bytes as
the offset says. -/
theorem splitAt?_eq_some {cs before after : List Char} {n : Nat}
    (h : splitAt? cs n = some (before, after)) :
    cs = before ++ after ∧ byteSize before = n := by
  induction cs generalizing n before with
  | nil =>
      cases n with
      | zero => simp_all [splitAt?]
      | succ n => simp [splitAt?] at h
  | cons c cs ih =>
      cases n with
      | zero => simp_all [splitAt?]
      | succ n =>
          simp only [splitAt?] at h
          split at h
          · rename_i hFits
            obtain ⟨⟨first, second⟩, hRest, hPair⟩ := Option.map_eq_some_iff.1 h
            simp only [Prod.mk.injEq] at hPair
            obtain ⟨rfl, rfl⟩ := hPair
            obtain ⟨hText, hSize⟩ := ih hRest
            exact ⟨by simp [hText], by simp [hSize]; omega⟩
          · cases h

/-- Splitting where a first part ends gives that part. -/
theorem splitAt?_append (xs ys : List Char) :
    splitAt? (xs ++ ys) (byteSize xs) = some (xs, ys) := by
  induction xs with
  | nil => simp
  | cons c cs ih =>
      have hPos : 0 < c.utf8Size := Char.utf8Size_pos c
      obtain ⟨n, hn⟩ := Nat.exists_eq_add_one_of_ne_zero
        (by omega : c.utf8Size + byteSize cs ≠ 0)
      have hSub : n + 1 - c.utf8Size = byteSize cs := by omega
      simp [hn, splitAt?, hSub, ih]
      omega

/-- Whether an offset can be cut at. -/
def isBoundary (cs : List Char) (offset : Nat) : Bool :=
  (splitAt? cs offset).isSome

/-- The characters between two byte offsets. There are none when one of the offsets is not a
boundary or the second comes before the first. -/
def slice? (cs : List Char) (start stop : Nat) : Option (List Char) := do
  if stop < start then none
  let (_, rest) ← splitAt? cs start
  let (middle, _) ← splitAt? rest (stop - start)
  return middle

/-- Put a replacement in the place of the characters between two byte offsets. A text that cannot
be cut there is left as it is. -/
def replaceRange (cs : List Char) (start stop : Nat) (replacement : List Char) : List Char :=
  match splitAt? cs start with
  | none => cs
  | some (before, rest) =>
    match splitAt? rest (stop - start) with
    | none => cs
    | some (_, after) => before ++ replacement ++ after

end SolNorm.Text
