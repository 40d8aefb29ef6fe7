import SolNorm.Error
import SolNorm.Outline.OfTree
import SolNorm.Tree.Declaration

/-!
Parsing a source file into its outline, and the notion of a parser in general. Syntax trees come
from outside: whatever makes them, a text is accepted if its tree has neither errors nor gaps.
-/

namespace SolNorm

def Text.firstLine (text : String) : String :=
  let line := text.toList.takeWhile (· != '\n')
  let isWhole := line.length == text.toList.length
  String.ofList (if !isWhole && line.getLast? == some '\r' then line.dropLast else line)

/-- The error for a node that is missing or could not be read, at the place where it starts. -/
def ParseError.atNode (text : String) (n : Tree.Node) : ParseError :=
  let message :=
    if n.isMissing then s!"expected '{n.kind}'"
    else
      match n.firstLeaf.text text with
      | "" => "unexpected end of input"
      | spelling => s!"unexpected '{Text.firstLine spelling}'"
  .atOffset text n.span.start message

namespace Outline

/-- The outline of a text by the trees that `treeOf` makes. Where it makes none, it says why. -/
def parseWith (treeOf : String → Except String Tree.Node) (text : String) :
    Except ParseError Outline :=
  match treeOf text with
  | .error message => .error (.atOffset text 0 message)
  | .ok root =>
    match root.firstError? with
    | some n => .error (.atNode text n)
    | none => .ok (ofTree text root)

/-- The outline of a text by the trees of this library. -/
def parse : String → Except ParseError Outline := parseWith fun text => .ok (Tree.read text)

end Outline

/-- A way to turn texts into outlines. What it answers may depend on the texts that it was asked
about before, the earliest first. -/
structure Parser where
  name : String
  parse : List String → String → Except ParseError Outline

/-- The parser for Solidity over what makes its syntax trees. It has no memory. -/
def Parser.ofTrees (treeOf : String → Except String Tree.Node) : Parser :=
  ⟨"solidity", fun _ text => Outline.parseWith treeOf text⟩

/-- The parser for Solidity over the trees of this library. -/
def Parser.solidity : Parser := .ofTrees fun text => .ok (Tree.read text)

end SolNorm
