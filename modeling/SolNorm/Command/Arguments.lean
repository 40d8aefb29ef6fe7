import SolNorm.Text.Number

/-!
The arguments of the command line. Options and the two names that have to be given may come in any
order; after two dashes everything is a name.
-/

namespace SolNorm.Command

/-- What the command is asked to do. -/
structure Request where
  mainContract : String
  source : String
  printsRequest : Bool
  runs : Option Nat
  yulDetails : Bool
  inliner : Bool
  settingsFile : Option String
  includes : List String
  outputDirectory : Option String
  deriving DecidableEq, Repr, Inhabited

/-- The ways to call the command. -/
inductive Call where
  | run (request : Request)
  | help
  | version
  /-- The arguments cannot be used. -/
  | misuse
  deriving DecidableEq, Repr, Inhabited

/-- The arguments that have been read. -/
structure Draft where
  names : List String
  flags : List String
  options : List (String × String)
  deriving DecidableEq, Repr, Inhabited

namespace Draft

def empty : Draft := ⟨[], [], []⟩

def flagNames : List String := ["print-ir", "yul-details", "inliner"]

def optionNames : List String := ["runs", "config", "include", "out-dir"]

/-- The number that an option is given: a decimal number of 32 bits that may have a sign. -/
def number? (value : String) : Option Nat :=
  match value.toList with
  | '-' :: digits => if Text.isDecimal digits && Text.decimal digits == 0 then some 0 else none
  | cs => Text.word32? cs

/-- Read a name. There are two at most. -/
def addName? (d : Draft) (name : String) : Option Draft :=
  if d.names.length < 2 then some { d with names := d.names ++ [name] } else none

/-- Read an option without a value, which is given once at most. -/
def addFlag? (d : Draft) (flag : String) : Option Draft :=
  if flagNames.contains flag && !d.flags.contains flag then
    some { d with flags := d.flags ++ [flag] }
  else none

/-- Read an option with its value. Only directories to search can be given more than once. -/
def addOption? (d : Draft) (option value : String) : Option Draft :=
  let isNew := option == "include" || (d.options.lookup option).isNone
  let isValid := option != "runs" || (number? value).isSome
  if optionNames.contains option && isNew && isValid then
    some { d with options := d.options ++ [(option, value)] }
  else none

def finish (d : Draft) : Call :=
  match d.names with
  | [mainContract, source] =>
    .run
      { mainContract
        source
        printsRequest := d.flags.contains "print-ir"
        runs := (d.options.lookup "runs").bind number?
        yulDetails := d.flags.contains "yul-details"
        inliner := d.flags.contains "inliner"
        settingsFile := d.options.lookup "config"
        includes := (d.options.filter fun o => o.1 == "include").map Prod.snd
        outputDirectory := d.options.lookup "out-dir" }
  | _ => .misuse

end Draft

/-- An argument by itself. -/
inductive Argument where
  /-- Two dashes. -/
  | divider
  /-- A name after two dashes, and what is after an equals sign. -/
  | long (name : String) (value : Option String)
  /-- A letter after a single dash. -/
  | short (letter : Char)
  | name (text : String)
  deriving DecidableEq, Repr, Inhabited

/-- The form of an argument. A single dash is a name. -/
def Argument.ofText (text : String) : Argument :=
  match text.toList with
  | ['-', '-'] => .divider
  | '-' :: '-' :: rest =>
    let name := String.ofList (rest.takeWhile (· != '='))
    match rest.dropWhile (· != '=') with
    | [] => .long name none
    | _ :: value => .long name (some (String.ofList value))
  | '-' :: letter :: _ => .short letter
  | _ => .name text

/-- Whether an argument can be the value of the option before it. -/
def Argument.isValue : Argument → Bool
  | .name _ => true
  | _ => false

/-- Go on with arguments that could be used so far. -/
def continueWith (next : Draft → Call) : Option Draft → Call
  | some d => next d
  | none => .misuse

def readNames (d : Draft) (args : List String) : Call :=
  continueWith Draft.finish (args.foldlM Draft.addName? d)

/-- Read arguments. A request for help or for the version counts as soon as it is met. -/
def readFrom (d : Draft) : List String → Call
  | [] => d.finish
  | arg :: rest =>
    match Argument.ofText arg with
    | .divider => readNames d rest
    | .name text => continueWith (fun d => readFrom d rest) (d.addName? text)
    | .short 'h' => .help
    | .short 'V' => .version
    | .short _ => .misuse
    | .long "help" none => .help
    | .long "version" none => .version
    | .long option (some value) =>
      continueWith (fun d => readFrom d rest) (d.addOption? option value)
    | .long option none =>
      if Draft.optionNames.contains option then
        match rest with
        | [] => .misuse
        | value :: rest =>
          if (Argument.ofText value).isValue then
            continueWith (fun d => readFrom d rest) (d.addOption? option value)
          else .misuse
      else continueWith (fun d => readFrom d rest) (d.addFlag? option)

def read (args : List String) : Call := readFrom .empty args

end SolNorm.Command
