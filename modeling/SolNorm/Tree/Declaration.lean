import SolNorm.Tree.Statement

/-!
Reading what a source file declares: directives, contracts with their members, and the
declarations that stand by themselves. Every text has a tree; in that of a text which is no source
file stands an error node at the place where it stops being one.
-/

namespace SolNorm.Tree

namespace Reader

def arguments? (bound : Nat) : Reader (List Node) := do
  if ← seesSymbol "(" then arguments (expression bound) bound else return []

/-- Read a dotted name in the header of a function, with arguments if it has any. -/
def modifierInvocation (bound : Nat) : Reader Node := do
  let path ← path bound
  return .ofChildren "modifier_invocation" (path ++ (← arguments? bound))

/-- Read a base of a contract, with arguments if it has any. -/
def inheritanceSpecifier (bound : Nat) : Reader Node := do
  let ancestor := (← userType bound).inField "ancestor"
  let arguments := (← arguments? bound).map fun n => n.inField "ancestor_arguments"
  return .ofChildren "inheritance_specifier" (ancestor :: arguments)

/-- Read the keyword that marks an override, with the overridden contracts if they are listed. -/
def override (bound : Nat) : Reader Node := do
  let opening ← keyword "override"
  let overridden ←
    match ← symbol? "(" with
    | some brace => do pure (brace :: (← listUntil1 ")" (one (userType bound)) bound))
    | none => pure []
  return .ofChildren "override_specifier" (opening :: overridden)

/-- Read a word of a header, as a node that its meaning decides. -/
def headerWord : Reader Node := do
  let word ← word
  if Keyword.isVisibility word.text then return .ofChildren "visibility" [word.mark]
  else if Keyword.isMutability word.text then return .ofChildren "state_mutability" [word.mark]
  else return .leaf word.text word.span

/-- Read the attributes of a header. The words that satisfy `isKeyword` are read by `word`, those
that satisfy `ends` end the attributes, and any other word invokes a modifier. -/
def attributes (isKeyword overrides ends : String → Bool) (word : Reader Node) (bound : Nat) :
    Nat → Reader (List Node)
  | 0 => fail
  | n + 1 => do
    let first ← peekWord
    if first == "" || ends first then return []
    let next ←
      if isKeyword first then word
      else if overrides first then override bound
      else modifierInvocation bound
    return next :: (← attributes isKeyword overrides ends word bound n)

/-- Read a body, or the mark that stands for none. -/
def bodyOrEnd (bound : Nat) : Reader Node := do
  if ← seesSymbol ";" then symbol ";" else return (← functionBody bound).inField "body"

def describesFunction (w : String) : Bool :=
  Keyword.isVisibility w || Keyword.isMutability w || w == "virtual"

def functionAttributes (bound : Nat) : Reader (List Node) :=
  attributes describesFunction (· == "override") (· == "returns") headerWord bound bound

def results (bound : Nat) : Reader (List Node) := do
  match ← keyword? "returns" with
  | some mark => return mark :: (← parameters (type bound) bound)
  | none => return []

def function (bound : Nat) : Reader Node := do
  let opening := [← keyword "function", ← name]
  let parameters ← parameters (type bound) bound
  let attributes ← functionAttributes bound
  let results ← results bound
  let returnType :=
    if results.isEmpty then []
    else [(Node.ofChildren "return_type_definition" results).inField "return_type"]
  return .ofChildren "function_definition"
    (opening ++ parameters ++ attributes ++ returnType ++ [← bodyOrEnd bound])

/-- Read the function that is called when no other fits, or that receives plain payments. -/
def fallback (bound : Nat) : Reader Node := do
  let opening ← markWhere fun w => ["fallback", "receive", "function"].contains w
  let parameters ← parameters (type bound) bound
  let attributes ← functionAttributes bound
  let results ← results bound
  return .ofChildren "fallback_receive_definition"
    (opening :: parameters ++ attributes ++ results ++ [← bodyOrEnd bound])

def constructor (bound : Nat) : Reader Node := do
  let opening ← keyword "constructor"
  let parameters ← parameters (type bound) bound
  let attributes ← attributes (fun w => ["payable", "internal", "public"].contains w)
    (fun _ => false) (fun _ => false) (markWhere fun _ => true) bound bound
  return .ofChildren "constructor_definition"
    (opening :: parameters ++ attributes ++ [(← functionBody bound).inField "body"])

def modifier (bound : Nat) : Reader Node := do
  let opening := [← keyword "modifier", ← name]
  let parameters ← if ← seesSymbol "(" then parameters (type bound) bound else pure []
  let attributes ← attributes (· == "virtual") (· == "override")
    (fun w => w != "virtual" && w != "override") headerWord bound bound
  return .ofChildren "modifier_definition"
    (opening ++ parameters ++ attributes ++ [← bodyOrEnd bound])

def describesVariable (w : String) : Bool :=
  Keyword.isVisibility w || ["constant", "immutable", "transient"].contains w

def variableWord : Reader Node := do
  let word ← word
  match word.text with
  | "constant" => return word.mark
  | "immutable" => return .leaf "immutable" word.span
  | "transient" => return (Node.leaf "state_location" word.span).inField "location"
  | _ => return (Node.ofChildren "visibility" [word.mark]).inField "visibility"

def variableWords (bound : Nat) : Nat → Reader (List Node)
  | 0 => fail
  | n + 1 => do
    let first ← peekWord
    if describesVariable first then return (← variableWord) :: (← variableWords bound n)
    if first == "override" then return (← override bound) :: (← variableWords bound n)
    else return []

def stateVariable (bound : Nat) : Reader Node := do
  let type := (← type bound).inField "type"
  let words ← variableWords bound bound
  let name ← name
  let rest ← if ← seesSymbol "=" then valueEnd bound else one (symbol ";")
  return .ofChildren "state_variable_declaration" (type :: words ++ name :: rest)

def enumeration (bound : Nat) : Reader Node := do
  let opening := [← keyword "enum", ← name]
  let brace ← symbol openBrace
  let values ← listUntil closeBrace (do return [.leaf "enum_value" (← word).span]) bound
  return .ofChildren "enum_declaration"
    (opening ++ [(Node.ofChildren "enum_body" (brace :: values)).inField "body"])

/-- Read a struct, which has at least one field. -/
def struct (bound : Nat) : Reader Node := do
  let opening := [← keyword "struct", ← name]
  let brace ← symbol openBrace
  if ← seesSymbol closeBrace then fail
  let member : Reader Node := do
    return .ofChildren "struct_member" [(← type bound).inField "type", ← name, ← symbol ";"]
  let members ← manyUntil closeBrace member bound
  return .ofChildren "struct_declaration"
    (opening ++ [(Node.ofChildren "struct_body" (brace :: members)).inField "body"])

def event (bound : Nat) : Reader Node := do
  let opening := [← keyword "event", ← name, ← symbol "("]
  let parameter : Reader (List Node) := do
    let type := (← type bound).inField "type"
    let indexed ← keyword? "indexed"
    return [.ofChildren "event_parameter" (type :: indexed.toList ++ (← optional (one name)))]
  let list ← listUntil ")" parameter bound
  let anonymous ← keyword? "anonymous"
  return .ofChildren "event_definition" (opening ++ list ++ anonymous.toList ++ [← symbol ";"])

def errorType (bound : Nat) : Reader Node := do
  let opening := [← keyword "error", ← name, ← symbol "("]
  let parameter : Reader (List Node) := do
    let type := (← type bound).inField "type"
    return [.ofChildren "error_parameter" (type :: (← optional (one name)))]
  let list ← listUntil ")" parameter bound
  return .ofChildren "error_declaration" (opening ++ list ++ [← symbol ";"])

def namedType : Reader Node := do
  return .ofChildren "user_defined_type_definition"
    [← keyword "type", ← name, ← keyword "is", ← elementary, ← symbol ";"]

/-- Read the first of some marks that comes next. -/
def oneOf (spellings : List String) : Reader Node :=
  spellings.foldr (fun spelling other => either (symbol spelling) other) fail

/-- Read one of the operators that a `using` directive may give a meaning to. -/
def definableOperator : Reader Node := do
  return .ofChildren "user_definable_operator"
    [← oneOf ["==", ">=", "<=", "!=", "&", "~", "|", "^", "+", "-", "/", "%", "*", ">", "<"]]

def usingDirective (bound : Nat) : Reader Node := do
  let opening ← keyword "using"
  let entry : Reader (List Node) := do
    let type ← userType bound
    let operator ←
      match ← keyword? "as" with
      | some mark => do pure [mark, ← definableOperator]
      | none => pure []
    return [.ofChildren "using_alias" (type :: operator)]
  let used ←
    match ← symbol? openBrace with
    | some brace => do pure (brace :: (← listUntil1 closeBrace entry bound))
    | none => do pure [.ofChildren "type_alias" (← path bound)]
  let mark ← keyword "for"
  let subject ←
    match ← symbol? "*" with
    | some star => pure (.ofChildren "any_source_type" [star])
    | none => type bound
  let reach ← keyword? "global"
  return .ofChildren "using_directive"
    (opening :: used ++ [mark, subject.inField "source"] ++ reach.toList ++ [← symbol ";"])

/-- Look past the parameters of a function without a name and a single attribute. The test takes
whether there is such an attribute, and the next word. -/
def namelessFunction (bound : Nat) (test : Bool → String → Bool) : Reader Bool := sees do
  let _ ← keyword "function"
  let _ ← parameters (type bound) bound
  let described ← attempt (wordWhere fun w => Keyword.isVisibility w || Keyword.isMutability w)
  if !test described.isSome (← peekWord) then fail

/-- Whether a function without a name must be the type of a variable: a word follows that describes
variables only. -/
def startsVariable (bound : Nat) : Reader Bool := namelessFunction bound fun _ w =>
  describesVariable w && !Keyword.isVisibility w

/-- Whether a function without a name must be a definition: a word follows that is no part of a
type. After an attribute only `virtual` is such a word, as others may name a variable. -/
def startsFallback (bound : Nat) : Reader Bool := namelessFunction bound fun attributed w =>
  if attributed then w == "virtual" else w != "" && w != "returns"

def member (bound : Nat) : Reader Node := do
  match ← peekWord with
  | "function" =>
    if !(← sees (do let _ ← word; symbol "(")) then function bound
    else if ← startsVariable bound then stateVariable bound
    else if ← startsFallback bound then fallback bound
    else either (stateVariable bound) (fallback bound)
  | "fallback" | "receive" => fallback bound
  | "constructor" => constructor bound
  | "modifier" => modifier bound
  | "struct" => struct bound
  | "enum" => enumeration bound
  | "event" => event bound
  | "error" => errorType bound
  | "type" => namedType
  | "using" => usingDirective bound
  | _ => stateVariable bound

/-- Whether a brace after the value of a storage layout belongs to that value: it does if it holds
named settings, or nothing and the header goes on. -/
def opensInLayout : Reader Bool := do
  let settings ← sees do
    let _ ← symbol openBrace
    let _ ← word
    symbol ":"
  let nothing ← sees do
    let _ ← symbol openBrace
    let _ ← symbol closeBrace
    let next ← peekWord
    let ends ← atEnd
    if ends || !(["", "is", "layout"].contains next) then fail
  return settings || nothing

/-- Read the bases of a contract after their keyword. -/
def bases (bound : Nat) : Nat → Reader (List Node)
  | 0 => fail
  | n + 1 => do
    let first ← inheritanceSpecifier bound
    match ← symbol? "," with
    | none => return [first]
    | some comma =>
      if ["", "is", "layout"].contains (← peekWord) then return [first, comma]
      return first :: comma :: (← bases bound n)

/-- Read what stands between the name of a contract and its body. -/
def heritage (bound : Nat) : Nat → Reader (List Node)
  | 0 => fail
  | n + 1 => do
    if let some mark ← keyword? "is" then
      let list ← bases bound bound
      return mark :: list ++ (← heritage bound n)
    if let some mark ← keyword? "layout" then
      let place ← keyword "at"
      let value ← expressionBefore opensInLayout bound
      return .ofChildren "layout_specifier" [mark, place, value] :: (← heritage bound n)
    else return []

/-- Read the bases of an interface, which may be listed once. -/
def interfaceBases (bound : Nat) : Nat → Reader (List Node)
  | 0 => fail
  | n + 1 => do
    let first ← inheritanceSpecifier bound
    match ← symbol? "," with
    | none => return [first]
    | some comma =>
      if ← seesSymbol openBrace then return [first, comma]
      return first :: comma :: (← interfaceBases bound n)

def contract (bound : Nat) : Reader Node := do
  let isAbstract ← keyword? "abstract"
  let opening ← word
  let (kind, heritage) : String × Reader (List Node) ←
    match opening.text with
    | "contract" => pure ("contract_declaration", heritage bound bound)
    | "interface" =>
      if isAbstract.isSome then fail
      else
        pure ("interface_declaration", do
          match ← keyword? "is" with
          | some mark => return mark :: (← interfaceBases bound bound)
          | none => return [])
    | "library" =>
      if isAbstract.isSome then fail else pure ("library_declaration", return [])
    | _ => fail
  let name ← name
  let heritage ← heritage
  let brace ← symbol openBrace
  let members ← manyUntil closeBrace (member bound) bound
  let body := (Node.ofChildren "contract_body" (brace :: members)).inField "body"
  return .ofChildren kind (isAbstract.toList ++ opening.mark :: name :: heritage ++ [body])

/-- Read a version number, whose parts may be stars and which allows some blanks and quotes. -/
def version : Reader Unit := do
  let isVersionDigit (c : Char) : Bool := c.isDigit || c == '*'
  let _ ← token fun cs =>
    let quote := if cs.head? == some '"' then 1 else 0
    let point := if (cs.drop quote).head? == some '.' then 1 else 0
    let blank := if (cs.drop (quote + point)).head? == some ' ' then 1 else 0
    let lead := quote + point + blank
    let major := runSize isVersionDigit (cs.drop lead)
    if major = 0 then 0
    else
      let rest := cs.drop (lead + major)
      let minor :=
        if rest.head? == some '.' then
          let gap := if (rest.drop 1).head? == some ' ' then 1 else 0
          let digits := runSize isVersionDigit (rest.drop (1 + gap))
          if digits = 0 then 0
          else
            let after := 1 + gap + digits
            let space := if (rest.drop after).head? == some ' ' then 1 else 0
            let tail := rest.drop (after + space)
            let patch := if tail.head? == some '.' then runSize isVersionDigit (tail.drop 1) else 0
            after + space + (if patch = 0 then 0 else 1 + patch)
        else 0
      let closing := if (rest.drop minor).head? == some '"' then 1 else 0
      lead + major + minor + closing

/-- Read a constraint on versions, with the mark that joins it to the next. -/
def versionConstraint : Reader (List Node) := do
  let _ ← attempt (oneOf ["<=", ">=", "<", "^", ">", "~", "="])
  version
  let _ ← attempt (either (symbol "||") (symbol "-"))
  return []

/-- Read the free text of a pragma up to its end mark. Only a comment right at its start is not part
of it. The number bounds the comments. -/
def pragmaText : Nat → Reader Unit
  | 0 => fail
  | n + 1 => fun c =>
    let afterComment : Option Cursor :=
      match c.rest with
      | '/' :: '/' :: rest =>
        let size := 2 + runSize (fun d => d != '\n' && d != '\r') rest
        some (c.skip size)
      | '/' :: '*' :: _ =>
        if c.next.comments.length = c.comments.length then none
        else some (skipFirstComment c)
      | _ => none
    match afterComment with
    | some next => pragmaText n next
    | none =>
      match runSize (· != ';') c.rest with
      | 0 => .error c.offset
      | size => .ok ((), c.skip size)
where
  /-- The place after the block comment that starts here. -/
  skipFirstComment (c : Cursor) : Cursor :=
    let rec go (offset : Nat) : List Char → Cursor
      | '*' :: '/' :: rest => ⟨rest, offset + 2, c.comments⟩
      | d :: rest => go (offset + d.utf8Size) rest
      | [] => ⟨[], offset, c.comments⟩
    go (c.offset + 2) (c.rest.drop 2)

/-- Read a pragma. What it demands is left out of the tree. -/
def pragma (bound : Nat) : Reader Node := do
  let opening ← keyword "pragma"
  let subject ← word
  let kind ←
    if subject.text == "solidity" then do
      let _ ← repeated versionConstraint bound
      pure "solidity_pragma_token"
    else do
      pragmaText bound
      pure "any_pragma_token"
  let stop ← tokenEnd
  return .ofChildren "pragma_directive"
    [opening, .leaf kind ⟨subject.span.start, stop⟩, ← symbol ";"]

def importAlias : Reader (List Node) := do
  match ← keyword? "as" with
  | some mark => return [mark, (← identifier).inField "alias"]
  | none => return []

/-- Read a name taken over from another file. -/
def importedName : Reader (List Node) := do
  let name := (← identifier).inField "import_name"
  return name :: (← importAlias)

def importDirective (bound : Nat) : Reader Node := do
  let opening ← keyword "import"
  let source : Reader Node := do return (← string).inField "source"
  let parts : List Node ←
    if ← sees string then do
      let path ← source
      pure (path :: (← importAlias))
    else do
      let names ←
        match ← symbol? openBrace with
        | some brace => do pure (brace :: (← listUntil closeBrace importedName bound))
        | none => do
          match ← symbol? "*" with
          | some star => pure (star :: (← importAlias))
          | none => importedName
      pure (names ++ [← keyword "from", ← source])
  return .ofChildren "import_directive" (opening :: parts ++ [← symbol ";"])

def constant (bound : Nat) : Reader Node := do
  let type := (← type bound).inField "type"
  let opening := [type, ← keyword "constant", ← name]
  return .ofChildren "constant_variable_declaration" (opening ++ (← valueEnd bound))

def item (bound : Nat) : Reader Node := do
  match ← peekWord with
  | "" => fail
  | "pragma" => pragma bound
  | "import" => importDirective bound
  | "abstract" | "contract" | "interface" | "library" => contract bound
  | "struct" => struct bound
  | "enum" => enumeration bound
  | "event" => event bound
  | "error" => errorType bound
  | "type" => namedType
  | "using" => usingDirective bound
  | "function" =>
    if ← sees (do let _ ← word; symbol "(") then constant bound else function bound
  | _ => constant bound

def file : Nat → Reader (List Node)
  | 0 => fail
  | n + 1 => do
    if ← atEnd then return []
    let first ← item n
    return first :: (← file n)

end Reader

/-- The bytes of the word or the character at an offset of a text. -/
def spanAt (cs : List Char) (offset : Nat) : Span :=
  let rest := ((Text.splitAt? cs offset).map Prod.snd).getD []
  ⟨offset, offset + Text.byteSize (rest.take (max 1 (wordSize rest)))⟩

/-- The tree of a text. Where the text stops being a source file, the tree has an error node. -/
def read (text : String) : Node :=
  let cs := text.toList
  let root : Node := .leaf "source_file" ⟨0, Text.byteSize cs⟩
  match Reader.file (cs.length + 2) ⟨cs, 0, []⟩ with
  | .ok (items, c) => Node.withComments { root with children := items } c.next.comments.reverse
  | .error offset => { root with children := [.leaf "ERROR" (spanAt cs offset)] }

end SolNorm.Tree
