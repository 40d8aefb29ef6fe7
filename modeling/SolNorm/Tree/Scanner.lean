import SolNorm.Tree.Basic
import SolNorm.Tree.Keyword

/-!
Reading a source file character by character. There is no separate list of tokens: which tokens are
possible depends on the place in the grammar, so each place asks for the ones it can take. Between
tokens stand blanks and comments. The readers of this library stand in for a generated parser; what
is made of a tree does not depend on them.
-/

namespace SolNorm.Tree

namespace Node

/-- A word or a mark that stands for itself. -/
def mark (kind : String) (span : Span) : Node := ⟨kind, none, false, false, span, []⟩

def leaf (kind : String) (span : Span) : Node := ⟨kind, none, true, false, span, []⟩

/-- A node that lies from its first child to its last. -/
def ofChildren (kind : String) (children : List Node) : Node :=
  let start := (children.head?.map fun c => c.span.start).getD 0
  let stop := (children.getLast?.map fun c => c.span.stop).getD 0
  ⟨kind, none, true, false, ⟨start, stop⟩, children⟩

def inField (n : Node) (name : String) : Node := { n with field := some name }

mutual

/-- Put comments into the innermost nodes that they lie in. -/
def withComments : Node → List Span → Node
  | ⟨kind, field, isNamed, isMissing, span, children⟩, comments =>
    ⟨kind, field, isNamed, isMissing, span, weave children comments⟩

/-- Put comments between nodes or into them. -/
def weave : List Node → List Span → List Node
  | [], comments => comments.map (leaf "comment")
  | n :: rest, comments =>
    let before := comments.takeWhile fun s => s.start < n.span.start
    let others := comments.dropWhile fun s => s.start < n.span.start
    let inside := others.takeWhile fun s => s.start < n.span.stop
    let behind := others.dropWhile fun s => s.start < n.span.stop
    before.map (leaf "comment") ++ n.withComments inside :: weave rest behind

end

end Node

/-- A place in a text: the characters still to come, the number of bytes before them, and the
comments among these, the last one first. -/
structure Cursor where
  rest : List Char
  offset : Nat
  comments : List Span
  deriving Inhabited

/-- A reader consumes characters and gives a value, or fails at a byte offset. -/
abbrev Reader := StateT Cursor (Except Nat)

namespace Cursor

/-- The place after some characters of the text. -/
def skip (c : Cursor) (count : Nat) : Cursor :=
  { c with
    rest := c.rest.drop count
    offset := c.offset + Text.byteSize (c.rest.take count) }

end Cursor

def isSeparator (c : Char) : Bool :=
  let n := c.toNat
  (9 ≤ n && n ≤ 13) || n == 0x20 || n == 0xA0 || n == 0x200B || n == 0x2060 || n == 0xFEFF

/-- What the characters between two tokens belong to. A comment is known by its first byte. -/
inductive Gap where
  | blank
  | line (start : Nat)
  | block (start : Nat)

/-- Skip blanks and comments. A block comment that is not closed is not skipped; `known` is the
place before it. -/
def skipGap : Gap → Cursor → Nat → List Char → Cursor
  | .blank, known, offset, [] => ⟨[], offset, known.comments⟩
  | .line start, known, offset, [] => ⟨[], offset, ⟨start, offset⟩ :: known.comments⟩
  | .block _, known, _, [] => known
  | .blank, known, offset, '/' :: '/' :: cs => skipGap (.line offset) known (offset + 2) cs
  | .blank, known, offset, '/' :: '*' :: cs =>
    skipGap (.block offset) ⟨'/' :: '*' :: cs, offset, known.comments⟩ (offset + 2) cs
  | .blank, known, offset, c :: cs =>
    if isSeparator c then skipGap .blank known (offset + c.utf8Size) cs
    else ⟨c :: cs, offset, known.comments⟩
  | .line start, known, offset, c :: cs =>
    if c = '\n' ∨ c = '\r' then
      skipGap .blank { known with comments := ⟨start, offset⟩ :: known.comments } (offset + 1) cs
    else skipGap (.line start) known (offset + c.utf8Size) cs
  | .block start, known, offset, '*' :: '/' :: cs =>
    skipGap .blank { known with comments := ⟨start, offset + 2⟩ :: known.comments } (offset + 2) cs
  | .block start, known, offset, c :: cs => skipGap (.block start) known (offset + c.utf8Size) cs

namespace Cursor

/-- The place where the next token starts. -/
def next (c : Cursor) : Cursor := skipGap .blank c c.offset c.rest

end Cursor

/-- A word or a mark and the bytes it covers. -/
structure Lexeme where
  text : String
  span : Span

def Lexeme.mark (l : Lexeme) : Node := .mark l.text l.span

namespace Reader

/-- Fail where the next token starts. -/
def fail {α : Type} : Reader α := fun c => .error c.next.offset

/-- Take the first reader that succeeds from this place. If both fail, the later place counts. -/
def either {α : Type} (first second : Reader α) : Reader α := fun c =>
  match first c with
  | .ok result => .ok result
  | .error m =>
    match second c with
    | .ok result => .ok result
    | .error n => .error (max m n)

/-- Read if possible, and stay in place otherwise. -/
def attempt {α : Type} (reader : Reader α) : Reader (Option α) := fun c =>
  match reader c with
  | .ok (value, c') => .ok (some value, c')
  | .error _ => .ok (none, c)

/-- What could be read here, without moving. -/
def peek {α : Type} (reader : Reader α) : Reader (Option α) := fun c =>
  match reader c with
  | .ok (value, _) => .ok (some value, c)
  | .error _ => .ok (none, c)

/-- Whether a reader succeeds here, without moving. -/
def sees {α : Type} (reader : Reader α) : Reader Bool := fun c =>
  match reader c with
  | .ok _ => .ok (true, c)
  | .error _ => .ok (false, c)

def tokenEnd : Reader Nat := fun c => .ok (c.offset, c)

/-- Whether nothing but blanks and comments is left. -/
def atEnd : Reader Bool := fun c => .ok (c.next.rest.isEmpty, c)

/-- Read a token of as many characters as `size` gives for the text at its start; a size of zero
means that there is none. -/
def token (size : List Char → Nat) : Reader Lexeme := fun c =>
  let start := c.next
  match size start.rest with
  | 0 => .error start.offset
  | n + 1 =>
    let stop := start.skip (n + 1)
    .ok (⟨String.ofList (start.rest.take (n + 1)), ⟨start.offset, stop.offset⟩⟩, stop)

def symbol (text : String) : Reader Node := do
  let lexeme ← token fun cs => if text.toList.isPrefixOf cs then text.length else 0
  return lexeme.mark

def openBrace : String := "\x7b"

def closeBrace : String := "\x7d"

def seesSymbol (text : String) : Reader Bool := sees (symbol text)

def symbol? (text : String) : Reader (Option Node) := attempt (symbol text)

def optional (reader : Reader (List Node)) : Reader (List Node) := do
  return (← attempt reader).getD []

def one (reader : Reader Node) : Reader (List Node) := do return [← reader]

end Reader

def isWordStart (c : Char) : Bool := c.isAlpha || c == '_' || c == '$'

/-- The characters of which a word is made. -/
def isWordRest (c : Char) : Bool := isWordStart c || c.isDigit

/-- The number of characters of the word at the start of a text. -/
def wordSize (cs : List Char) : Nat :=
  match cs with
  | c :: _ => if isWordStart c then (cs.takeWhile isWordRest).length else 0
  | [] => 0

namespace Reader

def word : Reader Lexeme := token wordSize

def identifier : Reader Node := do return .leaf "identifier" (← word).span

def wordWhere (condition : String → Bool) : Reader Lexeme := do
  match ← peek word with
  | some name => if condition name.text then word else fail
  | none => fail

/-- Read a word that satisfies a condition and stands for itself. -/
def markWhere (condition : String → Bool) : Reader Node := do return (← wordWhere condition).mark

def keyword (text : String) : Reader Node := markWhere (· == text)

def seesKeyword (text : String) : Reader Bool := sees (keyword text)

def keyword? (text : String) : Reader (Option Node) := attempt (keyword text)

/-- The next word, without moving; the empty text if no word comes next. -/
def peekWord : Reader String := do
  return ((← peek word).map Lexeme.text).getD ""

/-- Read entries up to a closing mark, which is read too. The number bounds the entries. -/
def manyUntil (close : String) (entry : Reader Node) : Nat → Reader (List Node)
  | 0 => fail
  | n + 1 => do
    if let some closing ← symbol? close then return [closing]
    let first ← entry
    return first :: (← manyUntil close entry n)

/-- Read entries with commas between them up to a closing mark, which is read too. A comma may also
stand after the last entry. The number bounds the entries. -/
def listUntil (close : String) (entry : Reader (List Node)) : Nat → Reader (List Node)
  | 0 => fail
  | n + 1 => do
    if let some closing ← symbol? close then return [closing]
    let first ← entry
    if let some comma ← symbol? "," then return first ++ comma :: (← listUntil close entry n)
    return first ++ [← symbol close]

/-- Read entries as long as a condition holds. The number bounds the entries. -/
def manyWhile (condition : Reader Bool) (entry : Reader Node) : Nat → Reader (List Node)
  | 0 => fail
  | n + 1 => do
    if !(← condition) then return []
    let first ← entry
    return first :: (← manyWhile condition entry n)

/-- Read at least one entry, otherwise as `listUntil`. -/
def listUntil1 (close : String) (entry : Reader (List Node)) (bound : Nat) :
    Reader (List Node) := do
  if ← seesSymbol close then fail
  listUntil close entry bound

end Reader

/-- The number of characters at the start of a text that satisfy a condition. -/
def runSize (condition : Char → Bool) (cs : List Char) : Nat := (cs.takeWhile condition).length

/-- The characters of a decimal number: digits, which may be grouped by underscores. -/
def isDecimalDigit (c : Char) : Bool := c.isDigit || c == '_'

def isHexDigit (c : Char) : Bool :=
  c.isDigit || ('a' ≤ c && c ≤ 'f') || ('A' ≤ c && c ≤ 'F')

/-- The number of characters of an exponent at the start of a text. -/
def exponentSize (cs : List Char) : Nat :=
  match cs with
  | c :: rest =>
    if c == 'e' || c == 'E' then
      let sign := if rest.head? == some '-' then 1 else 0
      let digits := runSize isDecimalDigit (rest.drop sign)
      if digits = 0 then 0 else 1 + sign + digits
    else 0
  | [] => 0

/-- The number of characters of a fraction, point included, at the start of a text. -/
def fractionSize (cs : List Char) : Nat :=
  match cs with
  | '.' :: rest =>
    let digits := runSize isDecimalDigit rest
    if digits = 0 then 0 else 1 + digits
  | _ => 0

/-- The number of characters of a decimal number at the start of a text. -/
def decimalSize (cs : List Char) : Nat :=
  let whole := runSize isDecimalDigit cs
  let fraction := fractionSize (cs.drop whole)
  if whole + fraction = 0 then 0
  else whole + fraction + exponentSize (cs.drop (whole + fraction))

/-- The number of characters of pairs or single digits, each with at most one underscore after it,
at the start of a text. -/
def hexGroupsSize : List Char → Nat
  | a :: b :: '_' :: cs =>
    if !isHexDigit a then 0
    else if isHexDigit b then 3 + hexGroupsSize cs
    else if b == '_' then 2
    else 1
  | a :: '_' :: cs => if isHexDigit a then 2 + hexGroupsSize cs else 0
  | a :: b :: cs =>
    if !isHexDigit a then 0 else if isHexDigit b then 2 + hexGroupsSize cs else 1
  | [a] => if isHexDigit a then 1 else 0
  | [] => 0

/-- The number of characters of a hexadecimal number at the start of a text. -/
def hexadecimalSize (cs : List Char) : Nat :=
  match cs with
  | '0' :: x :: rest =>
    if x == 'x' || x == 'X' then
      let digits := hexGroupsSize rest
      if digits = 0 then 0 else 2 + digits
    else 0
  | _ => 0

/-- The number of characters of a number at the start of a text. A word that could also be a number
is a word unless the number is longer. -/
def numberSize (cs : List Char) : Nat :=
  let size := max (decimalSize cs) (hexadecimalSize cs)
  if size ≤ wordSize cs then 0 else size

/-- The number of characters of the escape sequence that follows a backslash. -/
def escapeSize (cs : List Char) : Nat :=
  match cs with
  | 'x' :: a :: b :: _ => if isHexDigit a && isHexDigit b then 3 else 0
  | 'u' :: '{' :: rest =>
    let digits := runSize isHexDigit rest
    if digits ≠ 0 && (rest.drop digits).head? == some '}' then digits + 3 else 0
  | 'u' :: rest => if runSize isHexDigit (rest.take 4) = 4 then 5 else 0
  | 'x' :: _ => 0
  | _ :: _ => 1
  | [] => 0

namespace Reader

/-- Read the rest of a string up to its quote. What is on one line is taken as it is, with escape
sequences where they are allowed; after a line break only blanks and comments may come before the
quote. The number bounds the characters. -/
def stringRest (quote : Char) (escapes : Bool) : Nat → Reader Unit
  | 0 => fail
  | n + 1 => fun c =>
    match c.rest with
    | [] => .error c.offset
    | '\\' :: rest =>
      let size :=
        if rest.take 2 == ['\r', '\n'] then 2
        else if rest.head? == some '\n' then 1
        else if escapes then escapeSize rest
        else 0
      if size = 0 then .error c.offset
      else stringRest quote escapes n (c.skip (1 + size))
    | '\n' :: _ =>
      let next := c.next
      if next.rest.head? == some quote then .ok ((), next.skip 1) else .error next.offset
    | d :: _ =>
      if d = quote then .ok ((), c.skip 1)
      else stringRest quote escapes n (c.skip 1)

/-- Read a string in quotes of either sort, and give its two quotes. -/
def quoted (content : Char → Reader Unit) : Reader (List Node) := do
  let opening ← token fun cs =>
    match cs with
    | '"' :: _ | '\'' :: _ => 1
    | _ => 0
  content (opening.text.toList.headD '"')
  let stop ← tokenEnd
  return [opening.mark, .mark opening.text ⟨stop - 1, stop⟩]

/-- The bound on the characters of a string that starts here. -/
def remaining : Reader Nat := fun c => .ok (c.rest.length + 1, c)

def string : Reader Node := do
  let bound ← remaining
  return .ofChildren "string" (← quoted fun quote => stringRest quote true bound)

/-- Read a string in which a backslash may only stand before a line break. -/
def unicodeString : Reader (List Node) := do
  let bound ← remaining
  quoted fun quote => stringRest quote false bound

/-- Read pairs of hexadecimal digits, at most one underscore between two of them, up to a quote.
Blanks and comments may stand between them. The number bounds the pairs. -/
def hexPairs (quote : Char) (isFirst : Bool) : Nat → Reader Unit
  | 0 => fail
  | n + 1 => do
    if (← symbol? (String.singleton quote)).isSome then return ()
    if !isFirst then let _ ← symbol? "_"
    let _ ← token fun cs => if runSize isHexDigit (cs.take 2) = 2 then 2 else 0
    hexPairs quote false n

def hexString : Reader (List Node) := do
  let bound ← remaining
  quoted fun quote => hexPairs quote true bound

/-- Read a string with the word in front of it that tells its form. -/
def marked (mark : String) (string : Reader (List Node)) : Reader (List Node) := do
  let first ← keyword mark
  return first :: (← string)

def number : Reader Node := do
  let digits ← token numberSize
  let unit ← attempt (markWhere Keyword.isUnit)
  match unit with
  | some unit =>
    let span : Span := ⟨digits.span.start, unit.span.stop⟩
    return { Node.leaf "number_literal" span with children := [.ofChildren "number_unit" [unit]] }
  | none => return .leaf "number_literal" digits.span

/-- Read what is possible as often as possible. The number bounds the repetitions. -/
def repeated (reader : Reader (List Node)) : Nat → Reader (List Node)
  | 0 => return []
  | n + 1 => do
    match ← attempt reader with
    | some first => return first ++ (← repeated reader n)
    | none => return []

end Reader

end SolNorm.Tree
