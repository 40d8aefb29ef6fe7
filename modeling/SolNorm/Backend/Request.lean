import SolNorm.Backend.Settings
import SolNorm.Json.Output
import SolNorm.Text.Blank

/-!
The request that hands a prepared source to the backend.
-/

namespace SolNorm.Backend

/-- The name of the backend that takes requests as documents. -/
def name : String := "json"

def request (settings : Settings) (source : String) (metadata : Metadata) : Json :=
  .object [("mainContract", .text metadata.mainContract),
    ("settings", .object [("optimizer", .object [("runs", .number settings.runs),
      ("details", .object [("yul", .bool settings.yulDetails),
        ("inliner", .bool settings.inliner)])])]),
    ("source", .text source),
    ("metadata", metadata.toJson)]

/-- The text of a request, with all keys in order. There is none for a source of blanks only. -/
def compile (settings : Settings) (source : String) (metadata : Metadata) :
    Except Error String :=
  if Text.isAllBlank source then .error (.backend "empty source")
  else .ok (request settings source metadata).sortKeys.pretty

end SolNorm.Backend
