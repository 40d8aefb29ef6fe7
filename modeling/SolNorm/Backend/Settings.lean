import SolNorm.Error
import SolNorm.Json.Reader
import SolNorm.Text.Number

/-!
Settings of the backend, and the JSON files that hold them. A setting that a file does not mention
has its usual value.
-/

namespace SolNorm

/-- The settings of the optimizer of the backend. -/
structure Settings where
  /-- How often the code is expected to run. -/
  runs : Nat
  yulDetails : Bool
  inliner : Bool
  deriving DecidableEq, Repr, Inhabited

namespace Settings

def usual : Settings := ⟨200, false, false⟩

def keys : List String := ["runs", "yulDetails", "inliner"]

/-- Set what a key names. Other keys mean nothing. -/
def set? (s : Settings) (key : String) (value : SpelledJson) : Option Settings :=
  match key, value with
  | "runs", .number spelling =>
    if Text.isDecimal spelling.toList then
      (Text.word32? spelling.toList).map fun runs => { s with runs }
    else none
  | "yulDetails", .bool yulDetails => some { s with yulDetails }
  | "inliner", .bool inliner => some { s with inliner }
  | key, _ => if keys.contains key then none else some s

/-- Set one after the other what some keys name. -/
def setAll? (s : Settings) (members : List (String × SpelledJson)) : Option Settings :=
  members.foldlM (fun s (key, value) => s.set? key value) s

/-- The settings that a document holds. In an object no setting may be given twice; a list holds the
settings in their order and may end early. -/
def ofDocument? : SpelledJson → Option Settings
  | .object members => do
    let named ← members.mapM fun (key, value) => key.map fun k => (k, value)
    if keys.all fun k => (named.map Prod.fst).count k ≤ 1 then usual.setAll? named else none
  | .list values => if values.length ≤ keys.length then usual.setAll? (keys.zip values) else none
  | _ => none

def read (text : String) : Except Error Settings :=
  match (SpelledJson.read? text).bind ofDocument? with
  | some s => .ok s
  | none => .error (.json "the settings are not of the expected form")

end Settings

end SolNorm
