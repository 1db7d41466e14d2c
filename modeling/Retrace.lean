import Retrace.Batch
import Retrace.Cil.Boundary
import Retrace.Stream.Alignment
import Retrace.Stream.Run
import Retrace.Config
import Retrace.File.Tree
import Retrace.Json.Lexer
import Retrace.Json.Printer
import Retrace.Log
import Retrace.Markup.Event
import Retrace.Markup.Reference
import Retrace.RuleSet.Document
import Retrace.Sarif.Read
import Retrace.Sarif.Write
import Retrace.Symbols
import Retrace.Text.Blank
import Retrace.Text.Lines
import Retrace.Syntax.Enclosing
import Retrace.Proofs.Stream.Offset
import Retrace.Proofs.Stream.Phases
import Retrace.Proofs.Stream.Counterpart
import Retrace.Proofs.Session.Caching
import Retrace.Proofs.Bytes.Written
import Retrace.Proofs.SequencePoint.Layout
import Retrace.Proofs.SequencePoint.RoundTrip
import Retrace.Proofs.Session.HiddenRegion
import Retrace.Proofs.Stream.Monotone
import Retrace.Proofs.Session.Outcome
import Retrace.Proofs.Session.Documents
import Retrace.Proofs.Session.Reordered
import Retrace.Proofs.Session.Answers
import Retrace.Proofs.SequencePoint.Decoded
import Retrace.Proofs.Session.Stored
import Retrace.Proofs.Batch.Accounting
import Retrace.Proofs.Batch.Unsupported
import Retrace.Proofs.Json.RoundTrip
import Retrace.Proofs.Json.Members
import Retrace.Proofs.Json.Record
import Retrace.Proofs.Sarif.RoundTrip
import Retrace.Proofs.File.Kept
import Retrace.Proofs.Report.References
import Retrace.Proofs.Report.Registered
import Retrace.Proofs.Report.ReadBack
import Retrace.Proofs.Batch.Content
import Retrace.Proofs.Batch.ReportFiles
import Retrace.Proofs.Session.Confined
import Retrace.Proofs.Session.Dumped
import Retrace.Proofs.RuleSet.Merged
import Retrace.Proofs.Stream.Covering
import Retrace.Proofs.Stream.Retaken
import Retrace.Proofs.Stream.Ends
import Retrace.Proofs.Stream.Behind
import Retrace.Proofs.Stream.Bounds
import Retrace.Proofs.Bytes.Extended
import Retrace.Proofs.Bytes.Encoding
import Retrace.Proofs.Bytes.Moves
import Retrace.Proofs.SequencePoint.Truncated
import Retrace.Proofs.Stream.Widened
import Retrace.Proofs.Stream.Aligned
import Retrace.Proofs.Cil.Encoding
import Retrace.Proofs.Cil.Tiling
import Retrace.Proofs.Cil.Composition
import Retrace.Proofs.Syntax.Ancestors
import Retrace.Proofs.RuleSet.Suppressed
import Retrace.Proofs.RuleSet.Nested
import Retrace.Proofs.Session.Sanitized
import Retrace.Proofs.SequencePoint.Marked
import Retrace.Proofs.Report.Decorated
