import SolNorm.Text.Offset

/-!
Lines and columns, both counted from one. A column counts characters, not bytes.
-/

namespace SolNorm

/-- A place in a text as it is told to a reader. -/
structure Position where
  line : Nat
  column : Nat
  deriving DecidableEq, Repr, Inhabited

namespace Position

def start : Position := ⟨1, 1⟩

/-- The place after one more character. -/
def advance (p : Position) (c : Char) : Position :=
  if c = '\n' then ⟨p.line + 1, 1⟩ else ⟨p.line, p.column + 1⟩

def after (cs : List Char) : Position := cs.foldl advance start

/-- The place of a byte offset. Offsets past the end stand for the end; an offset inside a character
has no place. -/
def at? (text : String) (offset : Nat) : Option Position :=
  let cs := text.toList
  (Text.splitAt? cs (min offset (Text.byteSize cs))).map fun (before, _) => after before

/-- The place of a byte offset that is known to be a boundary. -/
def ofOffset (text : String) (offset : Nat) : Position := (at? text offset).getD start

def render (p : Position) : String := s!"{p.line}:{p.column}"

end Position

end SolNorm
