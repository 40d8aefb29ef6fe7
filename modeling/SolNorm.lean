import SolNorm.Text.Position
import SolNorm.Text.Span
import SolNorm.Text.Blank
import SolNorm.Text.Edit
import SolNorm.Text.Comment
import SolNorm.Error
import SolNorm.Tree.Scanner
import SolNorm.Tree.Expression
import SolNorm.Tree.Declaration
import SolNorm.Tree.Walk
import SolNorm.Outline.OfTree
import SolNorm.Outline.Parse
import SolNorm.Index.Resolution
import SolNorm.Selector.Collision
import SolNorm.File.Disk
import SolNorm.Import.Flatten
import SolNorm.Analysis.Call
import SolNorm.Analysis.Address
import SolNorm.Analysis.Storage
import SolNorm.Constructor.Merge
import SolNorm.Pipeline.Standard
import SolNorm.Json.Output
import SolNorm.Backend.Request
import SolNorm.Main
import SolNorm.Proofs.Outcome
import SolNorm.Proofs.Text.Splice
import SolNorm.Proofs.Text.Staging
import SolNorm.Proofs.Text.Ascending
import SolNorm.Proofs.Text.Parts
import SolNorm.Proofs.Text.Pieces
import SolNorm.Proofs.Text.Lexemes
import SolNorm.Proofs.Text.Layout
import SolNorm.Proofs.Text.Lines
import SolNorm.Proofs.Text.Positions
import SolNorm.Proofs.Text.Comments
import SolNorm.Proofs.Outline.Spans
import SolNorm.Proofs.Text.Kept
import SolNorm.Proofs.File.Location
import SolNorm.Proofs.File.Identity
import SolNorm.Proofs.Import.Step
import SolNorm.Proofs.Import.Graph
import SolNorm.Proofs.Import.Flatten
import SolNorm.Proofs.Import.Failure
import SolNorm.Proofs.Ancestry
import SolNorm.Proofs.Linearization.Merge
import SolNorm.Proofs.Linearization.Soundness
import SolNorm.Proofs.Linearization.Failure
import SolNorm.Proofs.Slips
import SolNorm.Proofs.Construction.Arguments
import SolNorm.Proofs.Construction.Capture
import SolNorm.Proofs.Construction.Edits
import SolNorm.Proofs.Construction.Rewrites
import SolNorm.Proofs.Construction.Order
import SolNorm.Proofs.Construction.Trace
import SolNorm.Proofs.Construction.Parameters
import SolNorm.Proofs.Construction.Spans
import SolNorm.Proofs.Construction.Frame
import SolNorm.Proofs.Selector.Suffixes
import SolNorm.Proofs.Selector.Families
import SolNorm.Proofs.Selector.Naming
import SolNorm.Proofs.Selector.RenameTable
import SolNorm.Proofs.Selector.Separation
import SolNorm.Proofs.Selector.Surface
import SolNorm.Proofs.Selector.Overrides
import SolNorm.Proofs.Selector.Exposure
import SolNorm.Proofs.Selector.Entries
import SolNorm.Proofs.Selector.Places
import SolNorm.Proofs.Selector.Exhaustion
import SolNorm.Proofs.Calls.Renamed
import SolNorm.Proofs.Calls.Binding
import SolNorm.Proofs.Calls.Skipped
import SolNorm.Proofs.Calls.Overloads
import SolNorm.Proofs.Calls.Conversion
import SolNorm.Proofs.Analysis.Shadowing
import SolNorm.Proofs.Pipeline.Run
import SolNorm.Proofs.Pipeline.Sync
import SolNorm.Proofs.Pipeline.Failure
import SolNorm.Proofs.Pipeline.Safety
import SolNorm.Proofs.Tree.Layout
import SolNorm.Proofs.Tree.Grammar
import SolNorm.Proofs.Tree.Walk
import SolNorm.Proofs.Outline.Placement
import SolNorm.Proofs.Outline.Found
import SolNorm.Proofs.Outline.Routines
import SolNorm.Proofs.Outline.Placed
import SolNorm.Proofs.Construction.Substitution
import SolNorm.Proofs.Construction.Rendering
import SolNorm.Proofs.Construction.NamedArguments
import SolNorm.Proofs.Pipeline.Headers
import SolNorm.Proofs.Pipeline.Metadata
