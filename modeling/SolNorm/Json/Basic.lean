/-!
JSON documents and their spelling over several lines.
-/

namespace SolNorm

/-- A JSON document. The members of an object have an order. -/
inductive Json where
  | null
  | bool (value : Bool)
  | number (value : Nat)
  | text (value : String)
  | list (values : List Json)
  | object (members : List (String × Json))
  deriving Repr, Inhabited

namespace Json

def ofOption : Option String → Json
  | some s => .text s
  | none => .null

def texts (values : List String) : Json := .list (values.map .text)

def controlDigits (n : Nat) : List Char :=
  ['0', '0', Nat.digitChar (n / 16), Nat.digitChar (n % 16)]

/-- A character inside a string. Only quotes, backslashes and control characters are escaped. -/
def escapeChar (c : Char) : List Char :=
  if c = '"' then ['\\', '"']
  else if c = '\\' then ['\\', '\\']
  else if c = '\n' then ['\\', 'n']
  else if c = '\r' then ['\\', 'r']
  else if c = '\t' then ['\\', 't']
  else if c = '\x08' then ['\\', 'b']
  else if c = '\x0c' then ['\\', 'f']
  else if c.toNat < 32 then '\\' :: 'u' :: controlDigits c.toNat
  else [c]

def quote (s : String) : String := "\"" ++ String.ofList (s.toList.flatMap escapeChar) ++ "\""

/-- A line break and the indentation of a depth. -/
def newline (depth : Nat) : String := "\n" ++ String.ofList (List.replicate (2 * depth) ' ')

/-- Parts between brackets, each on a line of its own. -/
def block (opening closing : String) (depth : Nat) (parts : List String) : String :=
  if parts.isEmpty then opening ++ closing
  else
    opening ++ newline (depth + 1) ++ ("," ++ newline (depth + 1)).intercalate parts ++
      newline depth ++ closing

mutual

def prettyAt (depth : Nat) : Json → String
  | .null => "null"
  | .bool true => "true"
  | .bool false => "false"
  | .number n => toString n
  | .text s => quote s
  | .list values => block "[" "]" depth (prettyList (depth + 1) values)
  | .object members => block "\x7b" "\x7d" depth (prettyMembers (depth + 1) members)

def prettyList (depth : Nat) : List Json → List String
  | [] => []
  | v :: rest => prettyAt depth v :: prettyList depth rest

def prettyMembers (depth : Nat) : List (String × Json) → List String
  | [] => []
  | (key, v) :: rest => (quote key ++ ": " ++ prettyAt depth v) :: prettyMembers depth rest

end

/-- The spelling of a document over several lines, indented by two blanks. -/
def pretty (j : Json) : String := prettyAt 0 j

mutual

/-- The document with the members of all objects in the order of their keys. -/
def sortKeys : Json → Json
  | .list values => .list (sortList values)
  | .object members => .object ((sortMembers members).mergeSort fun a b => a.1 ≤ b.1)
  | other => other

def sortList : List Json → List Json
  | [] => []
  | v :: rest => sortKeys v :: sortList rest

def sortMembers : List (String × Json) → List (String × Json)
  | [] => []
  | (key, v) :: rest => (key, sortKeys v) :: sortMembers rest

end

end Json

end SolNorm
