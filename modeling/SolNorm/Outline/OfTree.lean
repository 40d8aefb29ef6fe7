import SolNorm.Outline.Basic
import SolNorm.Text.Blank
import SolNorm.Tree.Walk

/-!
From the syntax tree of a text to its outline. Declarations are kept in full; of a body only three
things are kept: the calls that are made, the names that are mentioned, and the variables that are
declared. Every name is read off the text at the bytes of its node.
-/

namespace SolNorm.Outline

/-- The words that stand neither for a variable nor for anything that can be called. -/
def isReserved (word : String) : Bool :=
  ["if", "else", "for", "while", "do", "return", "returns", "emit", "new", "delete", "break",
    "continue", "try", "catch", "unchecked", "assembly", "memory", "storage", "calldata", "this",
    "super", "true", "false", "var", "public", "private", "internal", "external", "pure", "view",
    "payable", "constant", "immutable", "indexed", "virtual", "override", "function", "mapping",
    "type", "_", "wei", "gwei", "ether", "seconds", "minutes", "hours", "days", "weeks"].contains
    word

def isNumbered (base word : String) : Bool :=
  let digits := word.toList.drop base.length
  base.toList.isPrefixOf word.toList && !digits.isEmpty && digits.all Char.isDigit

/-- Whether `T(x)` converts to a type of the language and so is not a call. -/
def convertsTo (word : String) : Bool :=
  ["bool", "address", "string", "bytes", "byte", "uint", "int", "payable", "fixed",
    "ufixed"].contains word ||
    isNumbered "uint" word || isNumbered "int" word || isNumbered "bytes" word

/-- The full spelling of a type that the language lets one abbreviate. -/
def fullSpelling : String → String
  | "uint" => "uint256"
  | "int" => "int256"
  | "byte" => "bytes1"
  | other => other

/-- What a region of the source contributes to the outline of the body it is in. -/
structure Finds where
  locals : List Variable
  calls : List Call
  idents : List Ident
  deriving Inhabited

namespace Finds

def none : Finds := ⟨[], [], []⟩

def append (a b : Finds) : Finds :=
  ⟨a.locals ++ b.locals, a.calls ++ b.calls, a.idents ++ b.idents⟩

instance : Append Finds := ⟨append⟩

def join (list : List Finds) : Finds := list.foldr append none

/-- The calls in the order of their names. -/
def sortedCalls (f : Finds) : List Call :=
  f.calls.mergeSort fun a b => a.calleeSpan.start ≤ b.calleeSpan.start

end Finds

def mention (text : String) (n : Tree.Node) : Finds :=
  if isReserved (n.text text) then .none else ⟨[], [], [⟨n.text text, n.span⟩]⟩

theorem mem_of_types {n c : Tree.Node} {types : List Tree.Node}
    (h : (n.namedChildren.filter fun c => c.kind != "identifier") = types) (hc : c ∈ types) :
    c ∈ n.children := by
  subst h
  exact Tree.Node.mem_children_of_mem_namedChildren (List.mem_filter.mp hc).1

/-- The normal spelling of a type that is written in a text. -/
def spellType (text : String) (n : Tree.Node) : String :=
  let collapsed := Text.collapseBlanks (n.text text)
  match n.kind with
  | "primitive_type" =>
    if "address".toList.isPrefixOf collapsed.toList then "address" else fullSpelling collapsed
  | "type_name" =>
    match (n.children.head?.map Tree.Node.kind).getD "" with
    | "mapping" =>
      match h : n.namedChildren.filter fun c => c.kind != "identifier" with
      | key :: value :: rest =>
        have hKey := Tree.Node.size_lt_of_mem (n := n) (c := key) (mem_of_types h (by simp))
        have hValue := Tree.Node.size_lt_of_mem (n := n) (c := (value :: rest).getLast (by simp))
          (mem_of_types h (List.mem_cons_of_mem _ (List.getLast_mem _)))
        s!"mapping({spellType text key} => {spellType text ((value :: rest).getLast (by simp))})"
      | _ => collapsed
    | "function" => collapsed
    | _ =>
      match h : n.namedChildren with
      | element :: _ =>
        have := Tree.Node.size_lt_of_mem (n := n) (c := element)
          (Tree.Node.mem_children_of_mem_namedChildren (by simp [h]))
        if element.span.stop == n.span.stop then spellType text element
        else
          spellType text element ++
            Text.withoutBlanks (Span.slice ⟨element.span.stop, n.span.stop⟩ text)
      | [] => collapsed
  | "identifier" | "user_defined_type" => Text.withoutBlanks (n.text text)
  | _ => fullSpelling collapsed
termination_by n.size

def typeNode (n : Tree.Node) : Tree.Node :=
  ((n.childByField? "type").or n.namedChildren.head?).getD n

/-- The name of a declaration, which may be among some of its children only. -/
def nameNode? (n : Tree.Node) (among : List Tree.Node) : Option Tree.Node :=
  (n.childByField? "name").or
    (among.reverse.find? fun c => c.kind == "identifier" && !c.isSame (typeNode n))

/-- The parameter or the local variable that a declaration stands for. -/
def variableOf (text : String) (n : Tree.Node) : Variable :=
  let name := nameNode? n n.children
  { name := name.map fun m => m.text text
    nameSpan := name.map Tree.Node.span
    type := ⟨spellType text (typeNode n), (typeNode n).span⟩
    location := (n.children.map fun c => c.text text).find? fun word =>
      ["memory", "storage", "calldata"].contains word
    visibility := none
    isConstant := false
    isImmutable := false
    calls := []
    span := n.span }

/-- What stands before the point of a call to a member. -/
def receiverOf (text : String) (object : Tree.Node) : Receiver :=
  match object.text text with
  | "this" => .this
  | "super" => .super
  | name =>
    match object.kind with
    | "identifier" => .named name
    | "call_expression" =>
      let function := (object.childByField? "function").or object.namedChildren.head?
      match function.map Tree.Node.unwrap with
      | some f =>
        if f.kind == "identifier" && !isReserved (f.text text) then .cast (f.text text) else .other
      | none => .other
    | _ => .other

/-- The node that is called. Settings may stand between it and the arguments. -/
def function? (n : Tree.Node) : Option Tree.Node := do
  let function := (← (n.childByField? "function").or n.namedChildren.head?).unwrap
  if function.kind == "struct_expression" then return (← function.namedChildren.head?).unwrap
  return function

/-- The name that a call is made by, and its receiver. -/
def callee? (text : String) (n : Tree.Node) : Option (Tree.Node × Receiver) := do
  let function ← function? n
  match function.kind with
  | "identifier" =>
    let name := function.text text
    if isReserved name || convertsTo name then none else return (function, .none)
  | "member_expression" =>
    let property ← (function.childByField? "property").or function.namedChildren.getLast?
    return (property, receiverOf text (← function.object?))
  | _ => none

def callOf? (text : String) (n : Tree.Node) (entries : List Expr) : Option Call := do
  let (callee, receiver) ← callee? text n
  let _ ← n.argumentList?
  return {
    callee := callee.text text
    calleeSpan := callee.span
    receiver
    arguments := entries
    span := ⟨callee.span.start, n.span.stop⟩ }

/-- What the form of an expression tells of its value. -/
def kindOf (text : String) (n : Tree.Node) : ExprKind :=
  let spelling := n.text text
  match n.kind with
  | "number_literal" => .number
  | "string_literal" | "string" | "hex_string_literal" | "unicode_string_literal" => .text
  | "boolean_literal" => .truth
  | kind =>
    if spelling == "true" || spelling == "false" then .truth
    else if kind == "identifier" && !isReserved spelling then .name spelling
    else .other

/-- What is found in a node. A call comes before the calls inside it. -/
def findsOf (text : String) (n : Tree.Node) : Finds :=
  let here : Finds :=
    match n.kind with
    | "identifier" => mention text n
    | "variable_declaration" => ⟨[variableOf text n], [], []⟩
    | "call_expression" =>
      let entries := n.arguments.attach.map fun ⟨a, _⟩ =>
        let value := a.argumentValue
        ⟨kindOf text value.unwrap, value.span, (findsOf text value).idents⟩
      ⟨[], (callOf? text n entries).toList, []⟩
    | _ => .none
  here ++ .join (n.further.attach.map fun ⟨m, _⟩ => findsOf text m)
termination_by n.size
decreasing_by
  · exact Nat.lt_of_le_of_lt (Tree.Node.size_argumentValue_le a)
      (Tree.Node.size_lt_of_mem_arguments ‹_›)
  · exact Tree.Node.size_lt_of_mem_further ‹_›

/-- An expression with the names that it mentions. -/
def exprOf (text : String) (n : Tree.Node) : Expr :=
  ⟨kindOf text n.unwrap, n.span, (findsOf text n).idents⟩

/-- An entry of an argument list. A block of named values is one entry. -/
def argumentOf (text : String) (n : Tree.Node) : Expr := exprOf text n.argumentValue

def findsOfAll (text : String) (nodes : List Tree.Node) : Finds := .join (nodes.map (findsOf text))

def bodyOf (text : String) (n : Tree.Node) : Body :=
  let finds := findsOfAll text n.children
  ⟨n.span, finds.locals, finds.sortedCalls, finds.idents⟩

/-- The bytes of the name in front of an argument list. -/
def headSpan (n : Tree.Node) : Span :=
  let head := n.children.takeWhile fun c => !(c.kind == "(" || c.isArgumentList)
  match n.children.head?, head.getLast? with
  | some first, some last => ⟨first.span.start, last.span.stop⟩
  | _, _ => n.span

/-- The outline of a base or a modifier in a header. -/
def invocationOf (text : String) (n : Tree.Node) : Invocation where
  name := Text.withoutBlanks ((headSpan n).slice text)
  nameSpan := headSpan n
  arguments := n.argumentList?.map fun list => list.1.map (argumentOf text)
  argsSpan := n.argumentList?.map Prod.snd
  calls := (n.argumentList?.map fun list => (findsOfAll text list.1).sortedCalls).getD []
  span := n.span

def functionName? (kind : FunctionKind) (n : Tree.Node) : Option Tree.Node :=
  match kind with
  | .function | .modifier => (n.childByField? "name").or (n.childOfKind? "identifier")
  | .constructor | .fallback | .receive => none

/-- The name under which a function without a name goes. -/
def unnamed : FunctionKind → String
  | .constructor => "constructor"
  | .fallback => "fallback"
  | .receive => "receive"
  | .function | .modifier => ""

def functionBody? (n : Tree.Node) : Option Tree.Node :=
  (n.childByField? "body").or (n.childOfKind? "function_body")

/-- The children of a definition besides its name and its body. -/
def headerOf (kind : FunctionKind) (n : Tree.Node) : List Tree.Node :=
  n.children.filter fun c => !((functionName? kind n).any c.isSame || (functionBody? n).any c.isSame)

/-- The words that say what a function may do to the state. -/
def isMutability (word : String) : Bool := ["pure", "view", "payable", "constant"].contains word

/-- The words of a header are what stands there besides modifiers, overrides, parameters and
results. -/
def isHeaderWord (n : Tree.Node) : Bool :=
  !(["modifier_invocation", "return_type_definition", "override_specifier", "parameter",
    "parameter_list"].contains n.kind)

/-- The attribute that a node of a header is. -/
def attributeOf? (text : String) (n : Tree.Node) : Option Attribute :=
  let word := n.text text
  let isAttribute :=
    if isHeaderWord n then
      (Visibility.ofWord? word).isSome || isMutability word || word == "virtual"
    else n.kind == "override_specifier"
  if isAttribute then some ⟨word, n.span⟩ else none

/-- The outline of a function. Where a word of a kind is repeated the last one counts. -/
def functionOf (text : String) (kind : FunctionKind) (n : Tree.Node) : Function :=
  let name := functionName? kind n
  let header := headerOf kind n
  let words := (header.filter isHeaderWord).map fun c => c.text text
  { kind
    name := (name.map fun m => m.text text).getD (unnamed kind)
    nameSpan := name.map Tree.Node.span
    parameters := n.parameterList.1.map (variableOf text)
    paramsSpan := n.parameterList.2.getD
      (.point ((name.map fun m => m.span.stop).getD n.span.start))
    returns := (((header.filter fun c => c.kind == "return_type_definition").getLast?.map
      fun c => c.parameterList.1).getD []).map (variableOf text)
    visibility := (words.filterMap Visibility.ofWord?).getLast?
    mutability := (words.filter fun w => (Visibility.ofWord? w).isNone && isMutability w).getLast?
    attributes := header.filterMap (attributeOf? text)
    modifiers := (header.filter fun c => c.kind == "modifier_invocation").map (invocationOf text)
    body := (functionBody? n).map (bodyOf text)
    span := n.span }

def stateVariableOf (text : String) (n : Tree.Node) : Variable :=
  let header := n.children.takeWhile fun c => c.kind != "="
  let name := nameNode? n header
  let value := (n.childByField? "value").or n.children[header.length + 1]?
  let words := (header.filter fun c => !(name.any c.isSame || c.isSame (typeNode n))).map
    fun c => c.text text
  { name := name.map fun m => m.text text
    nameSpan := name.map Tree.Node.span
    type := ⟨spellType text (typeNode n), (typeNode n).span⟩
    location := none
    visibility := (words.filterMap Visibility.ofWord?).getLast?
    isConstant := n.kind == "constant_variable_declaration" || words.contains "constant"
    isImmutable := words.contains "immutable"
    calls := (value.map fun v => (findsOf text v).sortedCalls).getD []
    span := n.span }

/-- The name that a declaration gives to what it declares. -/
def declaredName? (text : String) (n : Tree.Node) : Option String :=
  ((n.childByField? "name").or (n.childOfKind? "identifier")).map fun m => m.text text

def memberFunction? (text : String) (n : Tree.Node) : Option Function :=
  match n.kind with
  | "function_definition" => some (functionOf text .function n)
  | "constructor_definition" => some (functionOf text .constructor n)
  | "modifier_definition" => some (functionOf text .modifier n)
  | "fallback_receive_definition" =>
    let receives := n.children.any fun c => c.text text == "receive"
    some (functionOf text (if receives then .receive else .fallback) n)
  | _ => none

def memberVariable? (text : String) (n : Tree.Node) : Option Variable :=
  if ["state_variable_declaration", "constant_variable_declaration"].contains n.kind then
    some (stateVariableOf text n)
  else none

def memberTypeName? (text : String) (n : Tree.Node) : Option String :=
  if ["struct_declaration", "enum_declaration", "event_definition", "error_declaration",
      "user_defined_type_definition"].contains n.kind then
    declaredName? text n
  else none

def basesOf (n : Tree.Node) : List Tree.Node :=
  if n.kind == "inheritance_specifier" then [n]
  else if n.kindMentions "heritage" then
    n.children.filter fun c => c.kind == "inheritance_specifier"
  else []

def contractKind (n : Tree.Node) : ContractKind :=
  match n.kind with
  | "interface_declaration" => .interface
  | "library_declaration" => .library
  | _ => .contract

def contractOf (text : String) (n : Tree.Node) : Contract :=
  let name := (n.childByField? "name").or (n.childOfKind? "identifier")
  let body := (n.childByField? "body").or (n.childOfKind? "contract_body")
  let members := (body.map Tree.Node.namedChildren).getD []
  { name := (name.map fun m => m.text text).getD ""
    nameSpan := (name.map Tree.Node.span).getD n.span
    kind := contractKind n
    isAbstract := n.children.any fun c => c.kind == "abstract"
    bases := (n.children.flatMap basesOf).map (invocationOf text)
    stateVariables := members.filterMap (memberVariable? text)
    functions := members.filterMap (memberFunction? text)
    typeNames := members.filterMap (memberTypeName? text)
    bodySpan := (body.map Tree.Node.span).getD n.span
    span := n.span }

def withoutQuotes (text : String) : String :=
  let isQuote (c : Char) : Bool := c == '"' || c == '\''
  String.ofList ((text.toList.dropWhile isQuote).reverse.dropWhile isQuote).reverse

/-- The leaves of an import, in which strings and names are whole. -/
def importTokens (n : Tree.Node) : List Tree.Node :=
  n.children.attach.flatMap fun ⟨c, _⟩ =>
    if c.children.isEmpty || ["string", "string_literal", "identifier"].contains c.kind then [c]
    else importTokens c
termination_by n.size
decreasing_by exact Tree.Node.size_lt_of_mem ‹_›

/-- What is known of an import after some of its leaves. -/
structure ImportState where
  directive : Import
  isInBraces : Bool
  isAfterAs : Bool

/-- The state after a name. A second name belongs to the last one in braces, or to the file. -/
def ImportState.name (s : ImportState) (name : String) : Import :=
  match s.isAfterAs, s.isInBraces with
  | true, true =>
    let alias? := s.directive.symbols.getLast?.map fun last => (last.1, some name)
    { s.directive with symbols := s.directive.symbols.dropLast ++ alias?.toList }
  | true, false => { s.directive with unitAlias := some name }
  | false, true => { s.directive with symbols := s.directive.symbols ++ [(name, none)] }
  | false, false => s.directive

def ImportState.step (text : String) (s : ImportState) (token : Tree.Node) : ImportState :=
  match token.kind with
  | "as" => { s with isAfterAs := true }
  | "\x7b" => ⟨s.directive, true, false⟩
  | "\x7d" => ⟨s.directive, false, false⟩
  | "string" | "string_literal" =>
    let path := withoutQuotes (token.text text)
    ⟨{ s.directive with path, pathSpan := token.span }, s.isInBraces, false⟩
  | "identifier" => ⟨s.name (token.text text), s.isInBraces, false⟩
  | _ => ⟨s.directive, s.isInBraces, false⟩

def importOf (text : String) (n : Tree.Node) : Import :=
  let start : ImportState := ⟨⟨"", n.span, none, [], n.span⟩, false, false⟩
  ((importTokens n).foldl (ImportState.step text) start).directive

/-- An entry of a file that is kept as text. -/
def otherOf (text : String) (n : Tree.Node) : Item :=
  let keyword := n.firstLeaf.text text
  let declares := ["struct", "enum", "event", "error", "type", "function"].contains keyword
  .other keyword (if declares then declaredName? text n else none) n.span

def itemOf (text : String) (n : Tree.Node) : Item :=
  match n.kind with
  | "pragma_directive" => .pragma n.span
  | "import_directive" => .imports (importOf text n)
  | "contract_declaration" | "interface_declaration" | "library_declaration" =>
    .contract (contractOf text n)
  | _ => otherOf text n

/-- The outline of a text with a syntax tree. -/
def ofTree (text : String) (root : Tree.Node) : Outline :=
  ⟨root.namedChildren.map (itemOf text), ⟨0, Text.byteSize text.toList⟩⟩

end SolNorm.Outline
