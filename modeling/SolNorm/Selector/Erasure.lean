import SolNorm.Outline.Basic

/-!
Types without their sizes. Where functions are called from outside, an array of any length is passed
like its elements, and a text like bytes; types that differ only in that cannot be told apart.
-/

namespace SolNorm

open Outline

namespace Erasure

/-- The spelling of a type without sizes, backwards. The last brackets of a type are dropped if
nothing is in them, and kept otherwise. -/
def eraseBackwards (cs : List Char) : List Char :=
  match cs with
  | [] => []
  | c :: rest =>
    if c = ']' ∧ '[' ∈ rest then
      let size := rest.takeWhile (· != '[')
      (if size.isEmpty then [] else ']' :: size ++ ['[']) ++
        eraseBackwards (rest.dropWhile (· != '[')).tail
    else if String.ofList (c :: rest).reverse = "string" then "bytes".toList.reverse
    else c :: rest
termination_by cs.length
decreasing_by
  have h := (List.dropWhile_suffix (l := rest) (· != '[')).length_le
  simp only [List.length_tail, List.length_cons]
  omega

/-- Whether there is a pair of brackets with nothing in it. -/
def hasEmptyBrackets : List Char → Bool
  | '[' :: ']' :: _ => true
  | _ :: rest => hasEmptyBrackets rest
  | [] => false

end Erasure

def eraseSizes (type : String) : String :=
  String.ofList (Erasure.eraseBackwards type.toList.reverse).reverse

/-- Whether a type has a size that is not known beforehand. -/
def isDynamic (type : String) : Bool :=
  Erasure.hasEmptyBrackets type.toList || ["string", "bytes"].contains (elementType type)

end SolNorm
