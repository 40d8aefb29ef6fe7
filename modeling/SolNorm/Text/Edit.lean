import SolNorm.Error

/-!
Edits and versions of a source. Edits are first staged in a batch, where no two of them may touch
the same bytes, and the batch is then applied to one version of the source to give the next.
-/

namespace SolNorm

/-- The replacement of a span of one source version. -/
structure Edit where
  span : Span
  replacement : String
  deriving DecidableEq, Repr, Inhabited

namespace Edit

/-- Whether an edit and a span touch the same bytes. Two insertions at one point have no order, so
they overlap; an insertion at either end of a replaced span does not. -/
def overlaps (e : Edit) (s : Span) : Bool :=
  if e.span.isEmpty && s.isEmpty then e.span.start == s.start
  else e.span.start < s.stop && s.start < e.span.stop

/-- The order in which edits are applied: from the last to the first, and a replacement before an
insertion at its start, so that no applied edit moves the bytes of one that is still to come. -/
def appliedBefore (a b : Edit) : Bool :=
  b.span.start < a.span.start || (a.span.start == b.span.start && b.span.stop ≤ a.span.stop)

def apply (cs : List Char) (e : Edit) : List Char :=
  Text.replaceRange cs e.span.start e.span.stop e.replacement.toList

end Edit

/-- One version of a source, with the text from which the first version started. -/
structure Source where
  text : String
  initial : String
  version : Nat
  deriving DecidableEq, Repr, Inhabited

namespace Source

/-- The first version of a source. -/
def ofText (text : String) : Source := ⟨text, text, 0⟩

def size (s : Source) : Nat := Text.byteSize s.text.toList

/-- The version that follows, with the same first text. -/
def next (s : Source) (text : String) : Source := ⟨text, s.initial, s.version + 1⟩

/-- Whether an edit can be cut out of the text. -/
def fits (s : Source) (e : Edit) : Bool :=
  e.span.stop ≤ s.size && Text.isBoundary s.text.toList e.span.start &&
    Text.isBoundary s.text.toList e.span.stop

end Source

/-- Edits that wait to be applied together, in the order in which they were staged. -/
structure Batch where
  edits : List Edit
  deriving DecidableEq, Repr, Inhabited

namespace Batch

def empty : Batch := ⟨[]⟩

def isEmpty (b : Batch) : Bool := b.edits.isEmpty

/-- Stage an edit. It is refused if it is reversed or overlaps a staged one, of which the first is
reported. -/
def stage (b : Batch) (span : Span) (replacement : String) : Except Error Batch :=
  if span.stop < span.start then .error (.reversedEdit span)
  else
    match b.edits.find? fun e => e.overlaps span with
    | some existing => .error (.overlap existing.span span)
    | none => .ok ⟨b.edits ++ [⟨span, replacement⟩]⟩

def stageAll (b : Batch) (edits : List Edit) : Except Error Batch :=
  edits.foldlM (fun batch e => batch.stage e.span e.replacement) b

/-- The characters of a text after every edit of the batch. -/
def applyTo (b : Batch) (cs : List Char) : List Char :=
  (b.edits.mergeSort Edit.appliedBefore).foldl Edit.apply cs

/-- Apply the batch to a source. The empty batch gives the same version back. A batch with an edit
that does not fit is not applied at all. -/
def commit (b : Batch) (source : Source) : Except Error Source :=
  if b.isEmpty then .ok source
  else
    match b.edits.find? fun e => !source.fits e with
    | some e => .error (.misfitEdit e.span source.version source.size)
    | none => .ok (source.next (String.ofList (b.applyTo source.text.toList)))

end Batch

/-- A source under edit: its current version and the edits staged against it. -/
structure Editor where
  source : Source
  batch : Batch
  deriving DecidableEq, Repr, Inhabited

namespace Editor

/-- What can be asked of an editor. -/
inductive Command where
  | stage (span : Span) (replacement : String)
  | discard
  | commit
  deriving DecidableEq, Repr

/-- A source with nothing staged. -/
def ofText (text : String) : Editor := ⟨Source.ofText text, .empty⟩

/-- Carry out a command. A refused edit leaves the batch as it was; a commit leaves it empty, also
when it fails. -/
def run (e : Editor) : Command → Editor × Option Error
  | .stage span replacement =>
    match e.batch.stage span replacement with
    | .ok batch => ({ e with batch }, none)
    | .error cause => (e, some cause)
  | .discard => ({ e with batch := .empty }, none)
  | .commit =>
    match e.batch.commit e.source with
    | .ok source => (⟨source, .empty⟩, none)
    | .error cause => ({ e with batch := .empty }, some cause)

end Editor

end SolNorm
