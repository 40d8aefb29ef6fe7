import SolNorm.Text.Offset

/-!
Half-open byte ranges. A span is meaningful for one text only: the one from which it was taken.
-/

namespace SolNorm

/-- The bytes from `start` up to `stop`, the latter excluded. -/
structure Span where
  start : Nat
  stop : Nat
  deriving DecidableEq, Repr, Inhabited

namespace Span

/-- The span of no bytes at an offset, where text can be inserted. -/
def point (offset : Nat) : Span := ⟨offset, offset⟩

def length (s : Span) : Nat := s.stop - s.start

def isEmpty (s : Span) : Bool := s.start == s.stop

/-- Whether the byte at an offset is covered. -/
def contains (s : Span) (offset : Nat) : Bool := s.start ≤ offset && offset < s.stop

def encloses (s other : Span) : Bool := s.start ≤ other.start && other.stop ≤ s.stop

def render (s : Span) : String := s!"{s.start}..{s.stop}"

/-- The covered part of a text, if the span can be cut out of it. -/
def slice? (s : Span) (text : String) : Option String :=
  (Text.slice? text.toList s.start s.stop).map String.ofList

/-- The covered part of a text, which is empty where the span cannot be cut out of it. -/
def slice (s : Span) (text : String) : String := (s.slice? text).getD ""

end Span

end SolNorm
