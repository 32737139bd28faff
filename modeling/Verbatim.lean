import Verbatim.Calendar
import Verbatim.CommandLine.Basic
import Verbatim.CommandLine.Environment
import Verbatim.CommandLine.Invocation
import Verbatim.CommandLine.Reading
import Verbatim.Cursor
import Verbatim.Data
import Verbatim.DataReader.Basic
import Verbatim.DataReader.Document
import Verbatim.DataReader.KeyPath
import Verbatim.DataReader.Namespace
import Verbatim.DataReader.Scalars
import Verbatim.DataReader.Strings
import Verbatim.DataReader.Values
import Verbatim.Document
import Verbatim.Failure
import Verbatim.Item.Assemble
import Verbatim.Item.Attribute
import Verbatim.Item.Basic
import Verbatim.Item.Convert
import Verbatim.Item.Edit
import Verbatim.Item.Equal
import Verbatim.Item.Path
import Verbatim.Item.Sharing
import Verbatim.Item.Walk
import Verbatim.Key
import Verbatim.KeyPath
import Verbatim.Line.Basic
import Verbatim.Line.Blank
import Verbatim.Line.KeyPath
import Verbatim.Line.Scan
import Verbatim.Line.Value
import Verbatim.Listing
import Verbatim.Literal
import Verbatim.Log
import Verbatim.Main
import Verbatim.Number.Binary64
import Verbatim.Number.Reader
import Verbatim.Number.Shortest
import Verbatim.Options
import Verbatim.Output
import Verbatim.Parsing
import Verbatim.Program
import Verbatim.Proofs.Acceptance
import Verbatim.Proofs.BasicString
import Verbatim.Proofs.Bodies
import Verbatim.Proofs.Composed
import Verbatim.Proofs.Conversion
import Verbatim.Proofs.Copying
import Verbatim.Proofs.CutLines
import Verbatim.Proofs.Deletion
import Verbatim.Proofs.Detachment
import Verbatim.Proofs.DocumentData
import Verbatim.Proofs.Dotting
import Verbatim.Proofs.EditRun
import Verbatim.Proofs.EditStep
import Verbatim.Proofs.Exchange
import Verbatim.Proofs.FaultPlaces
import Verbatim.Proofs.FieldPaths
import Verbatim.Proofs.Handover
import Verbatim.Proofs.InPlace
import Verbatim.Proofs.InsertedLines
import Verbatim.Proofs.Isolated
import Verbatim.Proofs.Joined
import Verbatim.Proofs.KeyPaths
import Verbatim.Proofs.Legible
import Verbatim.Proofs.LegibleLines
import Verbatim.Proofs.LineOrder
import Verbatim.Proofs.Literals
import Verbatim.Proofs.Mapping
import Verbatim.Proofs.NamedLists
import Verbatim.Proofs.OnePlace
import Verbatim.Proofs.OwnText
import Verbatim.Proofs.Passing
import Verbatim.Proofs.PathMarks
import Verbatim.Proofs.Placement
import Verbatim.Proofs.Progress
import Verbatim.Proofs.ReadDocument
import Verbatim.Proofs.ReadOnly
import Verbatim.Proofs.ReaderSteps
import Verbatim.Proofs.ReadingRun
import Verbatim.Proofs.RecordedOrder
import Verbatim.Proofs.RecordedText
import Verbatim.Proofs.RecordedTree
import Verbatim.Proofs.RecordedValues
import Verbatim.Proofs.Renumbering
import Verbatim.Proofs.Reread
import Verbatim.Proofs.Rereading
import Verbatim.Proofs.Rewording
import Verbatim.Proofs.RoundTrip
import Verbatim.Proofs.Runs
import Verbatim.Proofs.ScalarEdits
import Verbatim.Proofs.ScanAccepts
import Verbatim.Proofs.Settled
import Verbatim.Proofs.SnapshotGuard
import Verbatim.Proofs.SpanOrder
import Verbatim.Proofs.SpelledText
import Verbatim.Proofs.Spelling
import Verbatim.Proofs.Stages
import Verbatim.Proofs.Standing
import Verbatim.Proofs.StringEnd
import Verbatim.Proofs.StringRun
import Verbatim.Proofs.TokenEnd
import Verbatim.Proofs.Tree
import Verbatim.Proofs.TreeLaw
import Verbatim.Proofs.ValueData
import Verbatim.Proofs.ValueText
import Verbatim.Proofs.Ways
import Verbatim.Proofs.WholeLines
import Verbatim.Proofs.Writing
import Verbatim.Render
import Verbatim.Report
import Verbatim.Span
import Verbatim.Store
import Verbatim.Text.Blank
import Verbatim.Text.DecimalDigit
import Verbatim.Text.Encoding
import Verbatim.Text.LineBreak
import Verbatim.Text.PlaceMark
import Verbatim.Text.Printable
import Verbatim.Text.Quoted
import Verbatim.Text.Upper
import Verbatim.Workspace.Basic
import Verbatim.Workspace.Documents
import Verbatim.Workspace.Edit
import Verbatim.Proofs.Appending
import Verbatim.Proofs.BareTables
import Verbatim.Proofs.NestingLimit
import Verbatim.Proofs.SourceOrder
import Verbatim.Proofs.PlainData
import Verbatim.Proofs.Advance
import Verbatim.Proofs.ScannedStrings
