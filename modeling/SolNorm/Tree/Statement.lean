import SolNorm.Tree.Expression
import SolNorm.Tree.Assembly

/-!
Reading statements. What can be read as a declaration is one.
-/

namespace SolNorm.Tree.Reader

/-- Read the declaration of a local variable. A word that starts an expression of its own does not
name a type here. -/
def localVariable (bound : Nat) : Reader Node := do
  let first ← peekWord
  if Keyword.startsExpression first && !Keyword.isElementary first then fail
  declaration (localType bound)

def expressionEnd (bound : Nat) : Reader (List Node) := do
  return [← expression bound, ← symbol ";"]

def expressionStatement (bound : Nat) : Reader Node := do
  return .ofChildren "expression_statement" (← expressionEnd bound)

/-- Read the value of a declaration and the end of the statement. -/
def valueEnd (bound : Nat) : Reader (List Node) := do
  let equals ← symbol "="
  return [equals, (← expression bound).inField "value", ← symbol ";"]

def declaring (declared : Node) (rest : List Node) : Node :=
  .ofChildren "variable_declaration_statement" (declared :: rest)

/-- Read a statement that is a declaration or an expression. -/
def simple (bound : Nat) : Reader Node := do
  let first ← peekWord
  if first == "var" && (← sees (do let _ ← word; symbol "(")) then
    let opening := [← keyword "var", ← symbol "("]
    let mentions ← tupleRest identifier bound
    return declaring (.ofChildren "variable_declaration_tuple" (opening ++ mentions))
      (← valueEnd bound)
  if ← seesSymbol "(" then
    let declarations ← attempt do
      let opening ← symbol "("
      let list ← tupleRest (localVariable bound) bound
      if ← sees (do let _ ← symbol "="; symbol "=") then fail
      if !(← seesSymbol "=") then fail
      return Node.ofChildren "variable_declaration_tuple" (opening :: list)
    match declarations with
    | some declarations => return declaring declarations (← valueEnd bound)
    | none => expressionStatement bound
  else
    match ← attempt (localVariable bound) with
    | some variable_ =>
      if let some closing ← symbol? ";" then return declaring variable_ [closing]
      return declaring variable_ (← valueEnd bound)
    | none => if ["function", "mapping"].contains first then fail else expressionStatement bound

/-- What an event or an error is made of: what names it, and its arguments in parentheses. -/
def application? (value : Node) : Option (Node × List Node) :=
  match value.children with
  | [⟨"call_expression", _, _, _, _, function :: arguments⟩] => some (function, arguments)
  | [⟨"type_cast_expression", _, _, _, _, type :: arguments⟩] =>
    some (.ofChildren "expression" [type], arguments)
  | _ => none

/-- Whether a brace after the value of a `try` belongs to that value: it does if it holds named
settings, or nothing and no handler follows. -/
def opensInTry : Reader Bool := do
  let settings ← sees do
    let _ ← symbol openBrace
    let _ ← wordWhere fun w =>
      !(Keyword.startsStatement w || Keyword.startsExpression w || Keyword.startsType w)
    symbol ":"
  let nothing ← sees do
    let _ ← symbol openBrace
    let _ ← symbol closeBrace
    if ← seesKeyword "catch" then fail
  return settings || nothing

/-- Read a statement without its wrapper, given how to read the statements inside it. -/
def statementWith (statement : Reader Node) (n : Nat) : Reader Node := do
  let first ← peekWord
  let block : Reader Node := do
    let unchecked ← optional do return [.leaf "unchecked" (← keyword "unchecked").span]
    let opening ← symbol openBrace
    return .ofChildren "block_statement"
      (unchecked ++ opening :: (← manyUntil closeBrace statement n))
  let condition : Reader (List Node) := do
    let opening ← symbol "("
    return [opening, (← expression n).inField "condition", ← symbol ")"]
  let body : Reader Node := do return (← statement).inField "body"
  match first with
  | "" => if ← seesSymbol openBrace then block else simple n
  | "unchecked" => block
  | "if" =>
    let opening ← keyword "if"
    let test ← condition
    let body ← body
    let other ←
      match ← keyword? "else" with
      | some mark => pure [mark.inField "else", (← statement).inField "else"]
      | none => pure []
    return .ofChildren "if_statement" (opening :: test ++ body :: other)
  | "for" =>
    let opening := [← keyword "for", ← symbol "("]
    let start ← if ← seesSymbol ";" then symbol ";" else simple n
    let test ← if ← seesSymbol ";" then symbol ";" else expressionStatement n
    let step ← if ← seesSymbol ")" then pure [] else pure [(← expression n).inField "update"]
    let closing ← symbol ")"
    return .ofChildren "for_statement" (opening ++ start.inField "initial" ::
      test.inField "condition" :: step ++ [closing, ← body])
  | "while" =>
    let opening ← keyword "while"
    let test ← condition
    return .ofChildren "while_statement" (opening :: test ++ [← body])
  | "do" =>
    let opening := [← keyword "do", ← body, ← keyword "while"]
    let test ← condition
    return .ofChildren "do_while_statement" (opening ++ test ++ [← symbol ";"])
  | "continue" => return .ofChildren "continue_statement" [← keyword "continue", ← symbol ";"]
  | "break" => return .ofChildren "break_statement" [← keyword "break", ← symbol ";"]
  | "return" =>
    let opening ← keyword "return"
    let value ← if ← seesSymbol ";" then one (symbol ";") else expressionEnd n
    return .ofChildren "return_statement" (opening :: value)
  | "emit" =>
    let opening ← keyword "emit"
    let event ← expression n
    let closing ← symbol ";"
    match application? event with
    | some (event, arguments) =>
      return .ofChildren "emit_statement"
        (opening :: event.inField "name" :: arguments ++ [closing])
    | none => fail
  | "revert" =>
    let opening ← keyword "revert"
    let error : List Node ←
      if ← seesSymbol ";" then pure []
      else if ← sees (do let _ ← symbol "("; symbol openBrace) then
        pure [.ofChildren "revert_arguments" (← arguments (expression n) n)]
      else do
        let value ← expression n
        match application? value with
        | some (error, arguments) =>
          pure [error.inField "error", .ofChildren "revert_arguments" arguments]
        | none => pure [value.inField "error"]
    return .ofChildren "revert_statement" (opening :: error ++ [← symbol ";"])
  | "try" =>
    let opening ← keyword "try"
    let value := (← expressionBefore opensInTry n).inField "attempt"
    let results ←
      match ← keyword? "returns" with
      | some mark => do pure (mark :: (← parameters (type n) n))
      | none => pure []
    let body := (← block).inField "body"
    let handler : Reader Node := do
      let mark ← keyword "catch"
      let received ←
        if (← seesSymbol openBrace) || (← seesKeyword "unchecked") then pure []
        else do
          let name ← optional (one identifier)
          pure (name ++ (← parameters (type n) n))
      return .ofChildren "catch_clause" (mark :: received ++ [(← block).inField "body"])
    let firstHandler ← handler
    let handlers ← manyWhile (seesKeyword "catch") handler n
    return .ofChildren "try_statement"
      (opening :: value :: results ++ body :: firstHandler :: handlers)
  | "assembly" => Assembly.block n
  | _ => simple n

def statement : Nat → Reader Node
  | 0 => fail
  | n + 1 => do return .ofChildren "statement" [← statementWith (statement n) n]

def functionBody (bound : Nat) : Reader Node := do
  let opening ← symbol openBrace
  return .ofChildren "function_body" (opening :: (← manyUntil closeBrace (statement bound) bound))

end SolNorm.Tree.Reader
