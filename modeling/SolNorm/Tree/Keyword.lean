/-!
Words with a meaning of their own. No word is reserved everywhere: each place of the grammar has
its own list of words that cannot be names there.
-/

namespace SolNorm.Tree.Keyword

/-- Whether a text is a base word followed by one of the numbers that satisfy a condition, written
without leading zeros. -/
def isSized (base : String) (valid : Nat → Bool) (word : String) : Bool :=
  let digits := word.toList.drop base.length
  word.toList.take base.length == base.toList && !digits.isEmpty && digits.all Char.isDigit &&
    digits.head? != some '0' && valid (digits.foldl (fun n c => 10 * n + (c.toNat - 48)) 0)

/-- Whether a text is a base word followed by two numbers with an `x` between them. -/
def isFixedPoint (base : String) (word : String) : Bool :=
  let rest := word.toList.drop base.length
  let whole := rest.takeWhile Char.isDigit
  let fraction := (rest.dropWhile Char.isDigit).drop 1
  word.toList.take base.length == base.toList && !whole.isEmpty &&
    (rest.dropWhile Char.isDigit).head? == some 'x' && !fraction.isEmpty &&
    fraction.all Char.isDigit

def isElementary (word : String) : Bool :=
  ["address", "bool", "string", "var", "int", "uint", "byte", "bytes", "fixed", "ufixed"].contains
      word ||
    isSized "int" (fun n => n % 8 == 0 && n ≤ 256) word ||
    isSized "uint" (fun n => n % 8 == 0 && n ≤ 256) word ||
    isSized "bytes" (fun n => n ≤ 32) word || isFixedPoint "fixed" word ||
    isFixedPoint "ufixed" word

/-- The words that cannot be names where an expression starts. -/
def startsExpression (word : String) : Bool :=
  ["delete", "false", "hex", "new", "payable", "true", "type", "unicode"].contains word ||
    isElementary word

/-- The words that cannot be names where a type starts. -/
def startsType (word : String) : Bool :=
  ["function", "mapping"].contains word || isElementary word

def startsStatement (word : String) : Bool :=
  ["assembly", "break", "continue", "do", "emit", "for", "if", "return", "revert", "try",
    "unchecked", "while"].contains word

def isLocation (word : String) : Bool := ["memory", "storage", "calldata"].contains word

def isVisibility (word : String) : Bool :=
  ["public", "internal", "private", "external"].contains word

/-- The words that say what a function may do to the state. -/
def isMutability (word : String) : Bool := ["pure", "view", "payable"].contains word

def isUnit (word : String) : Bool :=
  ["wei", "szabo", "finney", "gwei", "ether", "seconds", "minutes", "hours", "days", "weeks",
    "years"].contains word

/-- The instructions that inline assembly may use without parentheses. -/
def isInstruction (word : String) : Bool :=
  ["stop", "add", "sub", "mul", "div", "sdiv", "mod", "smod", "exp", "not", "lt", "gt", "slt",
    "sgt", "eq", "iszero", "and", "or", "xor", "byte", "shl", "shr", "sar", "addmod", "mulmod",
    "signextend", "keccak256", "pop", "mload", "mcopy", "tload", "tstore", "mstore", "mstore8",
    "sload", "sstore", "msize", "gas", "address", "balance", "selfbalance", "caller", "callvalue",
    "calldataload", "calldatasize", "calldatacopy", "extcodesize", "extcodecopy",
    "returndatasize", "returndatacopy", "extcodehash", "create", "create2", "call", "callcode",
    "delegatecall", "staticcall", "return", "revert", "selfdestruct", "invalid", "log0", "log1",
    "log2", "log3", "log4", "chainid", "origin", "gasprice", "blockhash", "blobhash", "basefee",
    "blobfee", "coinbase", "timestamp", "number", "difficulty", "gaslimit", "prevrandao",
    "blobbasefee"].contains word

def isAssemblyValue (word : String) : Bool := ["true", "false", "hex"].contains word

end SolNorm.Tree.Keyword
