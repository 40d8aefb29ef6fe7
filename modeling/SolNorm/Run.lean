import SolNorm.Outline.Parse

/-!
Steps that can fail and that ask a parser. The texts that the parser was asked about are kept, also
when a step fails.
-/

namespace SolNorm

/-- A step of a run: it either fails or has a result, and it may ask the parser about texts. -/
abbrev Run (α : Type) := ExceptT Error (StateM (List String)) α

namespace Run

/-- What has succeeded or failed without the parser. -/
def ofExcept {α : Type} (result : Except Error α) : Run α := fun asked => (result, asked)

/-- Ask a parser about a text, with the error to report if it refuses. -/
def ask (p : Parser) (refusal : ParseError → Error) (text : String) : Run Outline := fun asked =>
  ((p.parse asked text).mapError refusal, asked ++ [text])

/-- Attach the name of a pass to the error of a step. -/
def within {α : Type} (pass : String) (run : Run α) : Run α := fun asked =>
  let (result, after) := StateT.run run asked
  (result.mapError (Error.within pass), after)

/-- The outcome of a run, and the texts that the parser was asked about. -/
def outcome {α : Type} (run : Run α) : Except Error α × List String := StateT.run run []

end Run

end SolNorm
