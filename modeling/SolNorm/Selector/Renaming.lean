import SolNorm.Selector.Basic

/-!
New names for functions. A name is extended by the types of the parameters, spelled with the
characters of an identifier, and by a number if that is taken already.
-/

namespace SolNorm.Renaming

/-- A character of an identifier in place of any character. -/
def identifierChar (c : Char) : Char := if c.isAlphanum || c == '_' then c else '_'

/-- The spelling of a type inside an identifier. Brackets with nothing in them become `_dyn`, others
an underscore with what is in them. -/
def spellType (cs : List Char) : List Char :=
  match cs with
  | [] => []
  | c :: rest =>
    if c = '[' then
      let size := rest.takeWhile (· != ']')
      (if size.isEmpty then "_dyn".toList else '_' :: size.map identifierChar) ++
        spellType (rest.dropWhile (· != ']')).tail
    else identifierChar c :: spellType rest
termination_by cs.length
decreasing_by
  · have h := (List.dropWhile_suffix (l := rest) (· != ']')).length_le
    simp only [List.length_tail, List.length_cons]
    omega
  · simp

def extend (name : String) (types : List String) : String :=
  name ++ String.join (types.map fun t => "_" ++ String.ofList (spellType t.toList))

/-- The candidates for a new name: the name itself, then the name with the numbers from two on. -/
def candidate (base : String) (n : Nat) : String :=
  if n = 0 then base else s!"{base}_{n + 1}"

/-- The first number from `n` on that is not refused. The search is given up after the given number
of steps. -/
def firstFree? (refused : Nat → Bool) : Nat → Nat → Option Nat
  | 0, _ => none
  | steps + 1, n =>
    match refused n with
    | true => firstFree? refused steps (n + 1)
    | false => some n

/-- The first candidate for a name that is not taken and whose tag is not taken either. Different
names may have one tag, so more candidates than there are names and tags may have to be tried; there
is no name when all that can be tried are refused.

Candidates are numbered by a counter of 32 bits with a sign, which ends at `2 ^ 31 - 1`; what is tried
here goes past that by the number of names and tags. Candidates with different tags are refused once
for each name or tag at most, so one of the first `names.length + tags.length + 1` of them is free: then
the search ends with a name, and the counter is not at its end unless about `2 ^ 31` names and tags are
taken. -/
def freshName? {Tag : Type} [DecidableEq Tag] (names : List String) (tags : List Tag)
    (tag : String → Tag) (base : String) : Option String :=
  let refused (n : Nat) : Bool :=
    names.contains (candidate base n) || tags.contains (tag (candidate base n))
  (firstFree? refused (2147483648 + names.length + tags.length) 0).map (candidate base)

end SolNorm.Renaming
