import SolNorm.Selector.Keccak

/-!
Selectors. A function is called from outside by four bytes of the hash of its signature, which is
its name with the types of its parameters.
-/

namespace SolNorm

/-- The number by which a function is called from outside. -/
abbrev Selector := UInt32

/-- A name with parameter types, as it is hashed. -/
def signatureText (name : String) (types : List String) : String :=
  name ++ "(" ++ ",".intercalate types ++ ")"

namespace Selector

/-- The first four bytes of the hash of a text, the highest first. -/
def ofText (text : String) : Selector :=
  (Keccak.hash text.toUTF8.data.toList).take 4 |>.foldl (fun n b => n <<< 8 ||| b.toUInt32) 0

def ofFunction (name : String) (types : List String) : Selector :=
  ofText (signatureText name types)

def hexDigit (n : Nat) : Char :=
  if n < 10 then Char.ofNat (48 + n) else Char.ofNat (87 + n)

def render (s : Selector) : String :=
  "0x" ++ String.ofList ((List.range 8).map fun k => hexDigit (s.toNat / Nat.pow 16 (7 - k) % 16))

end Selector

end SolNorm
