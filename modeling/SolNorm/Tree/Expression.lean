import SolNorm.Tree.Scanner

/-!
Reading types and expressions. Operators bind as usual, with one exception that shapes every tree:
an access by `.`, `[` or a brace applies to the whole operator expression to its left, up to the
nearest assignment or opening bracket, while the parentheses of a call bind tighter than any
operator. In `a + b.g(1)` the member `g` is thus taken of `a + b`.

Readers that call each other in a circle take a number that bounds the depth of nesting; each level
of nesting takes at least one character, so the length of the text is bound enough.
-/

namespace SolNorm.Tree

namespace Reader

def path (bound : Nat) : Reader (List Node) := do
  let first ← identifier
  return first :: (← repeated (do return [← symbol ".", ← identifier]) bound)

def userType (bound : Nat) : Reader Node := do return .ofChildren "user_defined_type" (← path bound)

/-- Read a type that the language defines. -/
def elementary : Reader Node := do
  let first ← wordWhere Keyword.isElementary
  let payable ← if first.text == "address" then keyword? "payable" else pure none
  return .ofChildren "primitive_type" (first.mark :: payable.toList)

/-- Read the place where a value is kept, if it is given. -/
def location : Reader (List Node) := optional do
  return [(← markWhere Keyword.isLocation).inField "location"]

def name : Reader Node := do return (← identifier).inField "name"

def declared (kind : String) (type : Reader Node) (rest : Reader (List Node)) : Reader Node := do
  let type ← type
  let location ← location
  return .ofChildren kind (type.inField "type" :: location ++ (← rest))

def parameter (type : Reader Node) : Reader Node := declared "parameter" type (optional (one name))

def result (type : Reader Node) : Reader Node := declared "return_parameter" type (return [])

def declaration (type : Reader Node) : Reader Node := declared "variable_declaration" type (one name)

def parameters (type : Reader Node) (bound : Nat) : Reader (List Node) := do
  let opening ← symbol "("
  return opening :: (← listUntil ")" (one (parameter type)) bound)

def arraySuffixes (expr : Reader Node) : Nat → Node → Reader Node
  | 0, _ => fail
  | n + 1, element => do
    match ← symbol? "[" with
    | none => return element
    | some opening =>
      let size ← if ← seesSymbol "]" then pure [] else one expr
      let closing ← symbol "]"
      arraySuffixes expr n (.ofChildren "type_name" ([element, opening] ++ size ++ [closing]))

/-- Read the words that may follow the parameters of a function type. -/
def typeAttribute : Reader (List Node) :=
  either (do return [.ofChildren "visibility" [← markWhere Keyword.isVisibility]])
    (do return [.ofChildren "state_mutability" [← markWhere Keyword.isMutability]])

/-- Read a type. `further` bounds the names that may follow the first one of a path. -/
def typeName (expr : Reader Node) (further : Nat) : Nat → Reader Node
  | 0 => fail
  | n + 1 => do
    let first ← peekWord
    let parts : List Node ←
      if first == "mapping" then do
        let opening := [← keyword "mapping", ← symbol "("]
        let key := (← either elementary (userType n)).inField "key_type"
        let keyName ← optional do return [(← identifier).inField "key_identifier"]
        let arrow ← symbol "=>"
        let value := (← typeName expr n n).inField "value_type"
        let valueName ← optional do return [(← identifier).inField "value_identifier"]
        pure (opening ++ key :: keyName ++ [arrow, value] ++ valueName ++ [← symbol ")"])
      else if first == "function" then do
        let opening ← keyword "function"
        let parameters := (← parameters (typeName expr n n) n).map fun n => n.inField "parameters"
        let attributes ← repeated typeAttribute n
        let results ←
          match ← keyword? "returns" with
          | some returns => do
            let brace ← symbol "("
            pure (returns :: brace :: (← listUntil1 ")" (one (result (typeName expr n n))) n))
          | none => pure []
        pure (opening :: parameters ++ attributes ++ results)
      else if Keyword.isElementary first then one elementary
      else one (userType further)
    arraySuffixes expr n (.ofChildren "type_name" parts)

def field (kind : String) (expr : Reader Node) : Reader Node := do
  let key ← name
  let colon ← symbol ":"
  return .ofChildren kind [key, colon, (← expr).inField "value"]

def argument (expr : Reader Node) (bound : Nat) : Reader Node := do
  match ← symbol? openBrace with
  | some opening =>
    let fields ← listUntil closeBrace (one (field "call_struct_argument" expr)) bound
    return .ofChildren "call_argument" (opening :: fields)
  | none => return .ofChildren "call_argument" [← expr]

def arguments (expr : Reader Node) (bound : Nat) : Reader (List Node) := do
  let opening ← symbol "("
  return opening :: (← listUntil ")" (one (argument expr bound)) bound)

/-- Read the entries of a tuple up to its closing parenthesis; entries may be left out. -/
def tupleRest (entry : Reader Node) : Nat → Reader (List Node)
  | 0 => fail
  | n + 1 => do
    if let some closing ← symbol? ")" then return [closing]
    if let some comma ← symbol? "," then return comma :: (← tupleRest entry n)
    let first ← entry
    if let some comma ← symbol? "," then return first :: comma :: (← tupleRest entry n)
    return [first, ← symbol ")"]

/-- Read one or more strings that stand side by side. -/
def strings (kind : String) (piece : Reader (List Node)) (bound : Nat) : Reader Node := do
  let first ← piece
  return .ofChildren kind (first ++ (← repeated piece bound))

/-- Read what an expression without operators is made of. -/
def primary (expr : Reader Node) (bound : Nat) : Reader Node := do
  if let some opening ← symbol? "(" then
    let entries ← tupleRest expr bound
    let isSingle := entries.map Node.kind == ["expression", ")"]
    return .ofChildren (if isSingle then "parenthesized_expression" else "tuple_expression")
      (opening :: entries)
  if let some opening ← symbol? "[" then
    return .ofChildren "inline_array_expression" (opening :: (← listUntil "]" (one expr) bound))
  if let some digits ← attempt number then return digits
  let first ← peekWord
  match first with
  | "" => strings "string_literal" (one string) bound
  | "hex" => strings "hex_string_literal" (marked "hex" hexString) bound
  | "unicode" => strings "unicode_string_literal" (marked "unicode" unicodeString) bound
  | "true" | "false" => return .ofChildren "boolean_literal" [.leaf first (← word).span]
  | "new" =>
    let opening ← keyword "new"
    return .ofChildren "new_expression" [opening, (← typeName expr 0 bound).inField "name"]
  | "payable" =>
    let opening ← keyword "payable"
    return .ofChildren "payable_conversion_expression" (opening :: (← arguments expr bound))
  | "type" =>
    let opening := [← keyword "type", ← symbol "("]
    let type ← typeName expr bound bound
    return .ofChildren "meta_type_expression" (opening ++ [type, ← symbol ")"])
  | _ =>
    if Keyword.isElementary first then elementary
    else if Keyword.startsExpression first then fail
    else identifier

def wrap (kind : String) (children : List Node) : Node :=
  .ofChildren "expression" [.ofChildren kind children]

def applied (value : Node) (arguments : List Node) : Node :=
  match value.children with
  | [type] =>
    if type.kind == "primitive_type" then wrap "type_cast_expression" (type :: arguments)
    else wrap "call_expression" (value.inField "function" :: arguments)
  | _ => wrap "call_expression" (value.inField "function" :: arguments)

def calls (expr : Reader Node) : Nat → Node → Reader Node
  | 0, _ => fail
  | n + 1, value => do
    if ← seesSymbol "(" then calls expr n (applied value (← arguments expr n))
    else
      match ← attempt (either (symbol "++") (symbol "--")) with
      | some step =>
        calls expr n (wrap "update_expression" [value.inField "argument", step.inField "operator"])
      | none => return value

def sign : Reader Node :=
  either (symbol "++") <| either (symbol "--") <| either (symbol "-") <| either (symbol "!") <|
    either (symbol "~") (keyword "delete")

/-- Read a value with the operators before it and the calls after it. -/
def operand (expr : Reader Node) : Nat → Reader Node
  | 0 => fail
  | n + 1 => do
    match ← attempt sign with
    | some opening =>
      let value ← operand expr n
      let kind := if ["++", "--"].contains opening.kind then "update_expression"
        else "unary_expression"
      return wrap kind [opening.inField "operator", value.inField "argument"]
    | none => calls expr n (.ofChildren "expression" [← primary expr n])

end Reader

/-- What an operator after a value does. -/
inductive Operator where
  /-- Join two values. Operators of a higher level bind tighter. -/
  | binary (level : Nat)
  | assign
  | choose
  deriving DecidableEq, Repr

/-- The operators that may follow a value; a longer spelling comes before its own beginnings. -/
def operators : List (String × Operator) :=
  [("<<=", .assign), (">>=", .assign), ("**", .binary 11), ("||", .binary 1), ("&&", .binary 2),
    ("==", .binary 3), ("!=", .binary 3), ("<=", .binary 4), (">=", .binary 4),
    ("<<", .binary 8), (">>", .binary 8), ("+=", .assign), ("-=", .assign), ("*=", .assign),
    ("/=", .assign), ("%=", .assign), ("^=", .assign), ("&=", .assign), ("|=", .assign),
    ("=", .assign), ("<", .binary 4), (">", .binary 4), ("|", .binary 5), ("^", .binary 6),
    ("&", .binary 7), ("+", .binary 9), ("-", .binary 9), ("*", .binary 10), ("/", .binary 10),
    ("%", .binary 10), ("?", .choose)]

namespace Reader

/-- The operator that comes next, with its spelling, without moving. -/
def peekOperator : Reader (Option (String × Operator)) := fun c =>
  let rest := c.next.rest
  .ok (operators.find? fun entry => entry.1.toList.isPrefixOf rest, c)

/-- Read binary operators of at least a level, with the values to their right, after a value. -/
def binaries (operand : Reader Node) : Nat → Nat → Node → Reader Node
  | 0, _, _ => fail
  | n + 1, least, left => do
    match ← peekOperator with
    | some (spelling, .binary level) =>
      if level < least then return left
      let operator ← symbol spelling
      let right ← binaries operand n (level + 1) (← operand)
      binaries operand n least (wrap "binary_expression"
        [left.inField "left", operator.inField "operator", right.inField "right"])
    | _ => return left

/-- Read an operator expression, without assignments and choices. -/
def joined (expr : Reader Node) (bound : Nat) : Reader Node := do
  binaries (operand expr bound) bound 0 (← operand expr bound)

/-- The object of a member: a name without anything around it, or an expression. -/
def objectOf (value : Node) : Node :=
  match value.children with
  | [inner] => if inner.kind == "identifier" then inner else value
  | _ => value

/-- Read the index or the bounds of an access after its opening bracket. -/
def indexRest (expr : Reader Node) : Reader (String × List Node) := do
  if let some closing ← symbol? "]" then return ("array_access", [closing])
  let lower ← if ← seesSymbol ":" then pure none else some <$> expr
  match ← symbol? ":" with
  | none =>
    let index := (lower.map fun n => n.inField "index").toList
    return ("array_access", index ++ [← symbol "]"])
  | some colon =>
    let lower := (lower.map fun n => n.inField "from").toList
    let upper ← if ← seesSymbol "]" then pure [] else pure [(← expr).inField "to"]
    return ("slice_access", lower ++ colon :: upper ++ [← symbol "]"])

/-- Read what may follow an operator expression short of an assignment: accesses, which apply to
all of it, and choices. After an access, calls and operators may follow again. A brace is read only
if `opens` says that it belongs to the expression. -/
def accesses (expr : Reader Node) (opens : Reader Bool) : Nat → Node → Reader Node
  | 0, _ => fail
  | n + 1, value => do
    let resume (next : Node) : Reader Node := do
      let called ← calls expr n next
      let combined ← binaries (operand expr n) n 0 called
      accesses expr opens n combined
    if let some point ← symbol? "." then
      let property ← identifier
      resume (wrap "member_expression"
        [(objectOf value).inField "object", point, property.inField "property"])
    else if let some opening ← symbol? "[" then
      let (kind, bounds) ← indexRest expr
      resume (wrap kind (value.inField "base" :: opening :: bounds))
    else if (← seesSymbol openBrace) && (← opens) then
      let opening ← symbol openBrace
      let fields ← listUntil closeBrace (one (field "struct_field_assignment" expr)) n
      resume (wrap "struct_expression" (value.inField "type" :: opening :: fields))
    else if let some question ← symbol? "?" then
      let chosen ← expr
      let colon ← symbol ":"
      let other ← joined expr n
      accesses expr opens n (wrap "ternary_expression" [value, question, chosen, colon, other])
    else return value

def expressionWith (expr : Reader Node) (opens : Reader Bool) (bound : Nat) : Reader Node := do
  let left ← accesses expr opens bound (← joined expr bound)
  match ← peekOperator with
  | some (spelling, .assign) =>
    let operator ← symbol spelling
    let right ← expr
    let kind := if spelling == "=" then "assignment_expression"
      else "augmented_assignment_expression"
    return wrap kind [left.inField "left", operator, right.inField "right"]
  | _ => return left

def expression : Nat → Reader Node
  | 0 => fail
  | n + 1 => expressionWith (expression n) (return true) n

/-- Read an expression after which a brace may stand that does not belong to it. -/
def expressionBefore (opens : Reader Bool) : Nat → Reader Node
  | 0 => fail
  | n + 1 => expressionWith (expression n) opens n

/-- Read a type where no expression can stand. -/
def type (bound : Nat) : Reader Node := typeName (expression bound) bound bound

/-- Read a type where an expression can stand as well. Its path has two names at most; a longer one
is an access to members. -/
def localType (bound : Nat) : Reader Node := typeName (expression bound) 1 bound

end Reader

end SolNorm.Tree
