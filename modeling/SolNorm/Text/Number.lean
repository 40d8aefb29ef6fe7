/-!
Decimal numbers in texts.
-/

namespace SolNorm.Text

def decimal (digits : List Char) : Nat := digits.foldl (fun n c => 10 * n + (c.toNat - 48)) 0

def isDecimal (cs : List Char) : Bool := !cs.isEmpty && cs.all Char.isDigit

/-- The value of a decimal number of 32 bits, which may have a plus sign in front. -/
def word32? (cs : List Char) : Option Nat :=
  let digits := if cs.head? == some '+' then cs.tail else cs
  if isDecimal digits && decimal digits < UInt32.size then some (decimal digits) else none

end SolNorm.Text
