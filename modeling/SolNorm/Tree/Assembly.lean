import SolNorm.Tree.Scanner

/-!
Inline assembly. It is a language of its own, and its inside is left out of the tree; it only has to
be well-formed. A statement has no end mark, so a comma after the first name of a list ends it, and
what follows reads as the next statement.
-/

namespace SolNorm.Tree.Reader.Assembly

def number : Reader Unit := do
  let _ ← token fun cs =>
    match cs with
    | '0' :: 'x' :: rest => 2 + runSize isHexDigit rest
    | '0' :: _ => 1
    | _ => runSize Char.isDigit cs

def literal : Reader Unit := do
  match ← peekWord with
  | "true" | "false" => let _ ← word
  | "hex" =>
    let _ ← word
    let _ ← hexString
  | _ => either number (do let _ ← string)

/-- Read names with commas between them in parentheses. -/
def names (atLeastOne : Bool) (bound : Nat) : Reader Unit := do
  let _ ← symbol "("
  let _ ← (if atLeastOne then listUntil1 else listUntil) ")" (one identifier) bound

/-- Read an expression. An instruction may stand without arguments; a function may not. -/
def expression : Nat → Reader Unit
  | 0 => fail
  | n + 1 => do
    let first ← peekWord
    let arguments : Reader Unit := do
      let _ ← symbol "("
      let _ ← listUntil ")" (do expression n; return []) n
    if first == "" || Keyword.isAssemblyValue first then literal
    else if Keyword.isInstruction first then
      let _ ← word
      if ← seesSymbol "(" then arguments
    else
      let _ ← word
      if ← seesSymbol "(" then arguments
      else let _ ← repeated (do return [← symbol ".", ← identifier]) n

def call (bound : Nat) : Reader Unit := do
  let first ← peekWord
  if first == "" || Keyword.isAssemblyValue first then fail
  if !Keyword.isInstruction first && !(← sees (do let _ ← word; symbol "(")) then fail
  expression bound

/-- Read the mark of an assignment, which may be written in two parts. -/
def assignment : Reader Unit := either (do let _ ← symbol ":=") do
  let _ ← symbol ":"
  let _ ← symbol "="

/-- Read what follows the names of a declaration: nothing, or a value. After a comma the value has
to be a call. -/
def initializer (mark : Reader Unit) (single : Bool) (bound : Nat) : Reader Unit := do
  let comma := (← symbol? ",").isSome
  if ← sees mark then
    mark
    if single && !comma then expression bound else call bound

/-- Read a statement that starts with a name: a call, an assignment, a label, or the name alone. -/
def named (bound : Nat) : Reader Unit := do
  let _ ← word
  if ← seesSymbol "(" then
    let _ ← symbol "("
    let _ ← listUntil ")" (do expression bound; return []) bound
  else
    let rest ← repeated (do return [← symbol ".", ← identifier]) bound
    if ← sees assignment then initializer assignment true bound
    else if rest.isEmpty && (← seesSymbol ":") then let _ ← symbol ":"
    else initializer assignment true bound

/-- Read a declaration of variables after its keyword. -/
def declaration (bound : Nat) : Reader Unit := do
  if ← seesSymbol "(" then
    names true bound
    if (← symbol? ":=").isSome then call bound
  else
    let _ ← word
    initializer (do let _ ← symbol ":=") true bound

/-- Read the names of results up to the brace that opens a body. -/
def results : Nat → Reader Unit
  | 0 => fail
  | n + 1 => do
    let _ ← word
    if (← symbol? ",").isSome then
      if !(← seesSymbol openBrace) then results n

/-- Read statements up to the brace that closes them. -/
def statements (statement : Reader Unit) : Nat → Reader Node
  | 0 => fail
  | n + 1 => do
    match ← symbol? closeBrace with
    | some closing => return closing
    | none =>
      statement
      statements statement n

def statement : Nat → Reader Unit
  | 0 => fail
  | n + 1 => do
    let first ← peekWord
    let block : Reader Unit := do
      let _ ← symbol openBrace
      let _ ← statements (statement n) n
    match first with
    | "" => if ← seesSymbol openBrace then block else literal
    | "let" =>
      let _ ← word
      declaration n
    | "if" =>
      let _ ← word
      expression n
      block
    | "for" =>
      let _ ← word
      block
      expression n
      block
      block
    | "switch" =>
      let _ ← word
      expression n
      let cases ← repeated (do let case ← keyword "case"; literal; block; return [case]) n
      if (← keyword? "default").isSome then block
      else if cases.isEmpty || (← peekWord) == "case" then fail
    | "leave" | "break" | "continue" => let _ ← word
    | "function" =>
      let _ ← word
      let _ ← word
      names false n
      if (← symbol? "->").isSome then results n
      block
    | _ =>
      if Keyword.isAssemblyValue first then literal
      else if Keyword.isInstruction first then expression n
      else named n

def block (bound : Nat) : Reader Node := do
  let opening ← keyword "assembly"
  let _ ← symbol? "\"evmasm\""
  if (← symbol? "(").isSome then let _ ← listUntil ")" (one string) bound
  let _ ← symbol openBrace
  return .ofChildren "assembly_statement" [opening, ← statements (statement bound) bound]

end SolNorm.Tree.Reader.Assembly
