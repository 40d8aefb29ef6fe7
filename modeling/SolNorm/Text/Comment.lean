import SolNorm.Text.Edit

/-!
Removal of comments. A line comment goes away; a block comment leaves its line breaks behind, so
that what follows stays on its line. Comment marks inside string literals are text.
-/

namespace SolNorm.Comment

/-- What the characters at a place belong to. -/
inductive Mode where
  /-- Source outside strings and comments. -/
  | code
  /-- A string literal that the quote ends. -/
  | quoted (quote : Char)
  /-- A line comment that began at the offset. -/
  | line (start : Nat)
  /-- A block comment that began at the offset, with the line breaks seen in it so far. -/
  | block (start : Nat) (breaks : Nat)
  deriving DecidableEq, Repr

/-- The replacement that removes a comment with some line breaks in it. -/
def removal (start stop breaks : Nat) : Edit :=
  ⟨⟨start, stop⟩, String.ofList (List.replicate breaks '\n')⟩

/-- The removals of the comments in the characters from an offset on. A string literal ends at its
quote or at the end of its line, and a backslash in it takes the next character along. A block
comment that is not closed is no comment. -/
def removalsFrom : Mode → Nat → List Char → List Edit
  | .line start, offset, [] => [removal start offset 0]
  | _, _, [] => []
  | .code, offset, '/' :: '/' :: cs => removalsFrom (.line offset) (offset + 2) cs
  | .code, offset, '/' :: '*' :: cs => removalsFrom (.block offset 0) (offset + 2) cs
  | .code, offset, c :: cs =>
    let mode := if c = '"' ∨ c = '\'' then Mode.quoted c else .code
    removalsFrom mode (offset + c.utf8Size) cs
  | .quoted quote, offset, '\\' :: c :: cs =>
    removalsFrom (.quoted quote) (offset + 1 + c.utf8Size) cs
  | .quoted quote, offset, c :: cs =>
    let mode := if c = quote ∨ c = '\n' then Mode.code else .quoted quote
    removalsFrom mode (offset + c.utf8Size) cs
  | .line start, offset, c :: cs =>
    if c = '\n' then removal start offset 0 :: removalsFrom .code (offset + 1) cs
    else removalsFrom (.line start) (offset + c.utf8Size) cs
  | .block start breaks, offset, '*' :: '/' :: cs =>
    removal start (offset + 2) breaks :: removalsFrom .code (offset + 2) cs
  | .block start breaks, offset, c :: cs =>
    let breaks := if c = '\n' then breaks + 1 else breaks
    removalsFrom (.block start breaks) (offset + c.utf8Size) cs

/-- The edits that remove the comments of a text, in the order of the text. -/
def removals (text : String) : List Edit := removalsFrom .code 0 text.toList

/-- The text without its comments. -/
def strip (text : String) : Except Error String := do
  let batch ← Batch.empty.stageAll (removals text)
  let source ← batch.commit (Source.ofText text)
  return source.text

end SolNorm.Comment
