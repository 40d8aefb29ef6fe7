/-!
Blank characters. The class is the Unicode property White_Space, which is wider than the blanks of
ASCII and does not hold of the zero-width characters.
-/

namespace SolNorm.Text

/-- Whether a character has the property White_Space. -/
def isBlank (c : Char) : Bool :=
  let n := c.toNat
  (9 ≤ n && n ≤ 13) || n == 0x20 || n == 0x85 || n == 0xA0 || n == 0x1680 ||
    (0x2000 ≤ n && n ≤ 0x200A) || n == 0x2028 || n == 0x2029 || n == 0x202F || n == 0x205F ||
    n == 0x3000

def withoutBlanks (text : String) : String :=
  String.ofList (text.toList.filter fun c => !isBlank c)

/-- The maximal runs of characters that are not blank. -/
def words (text : String) : List String :=
  (text.toList.splitBy fun a b => isBlank a == isBlank b).filterMap fun run =>
    if run.any isBlank then none else some (String.ofList run)

/-- The text with single spaces between its words and none around them. -/
def collapseBlanks (text : String) : String := " ".intercalate (words text)

def isAllBlank (text : String) : Bool := text.toList.all isBlank

end SolNorm.Text
