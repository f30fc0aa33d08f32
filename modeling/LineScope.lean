import LineScope.BackReference
import LineScope.Capture
import LineScope.Decimal.Shortest
import LineScope.Digest.Sha256
import LineScope.Document
import LineScope.Engine
import LineScope.Event
import LineScope.Grammar.Basic
import LineScope.Grammar.Declaration
import LineScope.Grammar.Draft
import LineScope.Grammar.Error
import LineScope.Grammar.Expansion
import LineScope.Grammar.Source
import LineScope.Json.Basic
import LineScope.Json.Display
import LineScope.Json.Fingerprint
import LineScope.Json.Printer
import LineScope.Json.Reader
import LineScope.Limits
import LineScope.Pattern.Basic
import LineScope.Pattern.Groups
import LineScope.Pattern.Input
import LineScope.Pattern.Item
import LineScope.Pattern.Level
import LineScope.Pattern.Matching
import LineScope.Pattern.Mode
import LineScope.Pattern.Problem
import LineScope.Pattern.Reader
import LineScope.Registry
import LineScope.Scan.Basic
import LineScope.Scan.Lines
import LineScope.Scan.Resume
import LineScope.Scope
import LineScope.Session
import LineScope.Snapshot
import LineScope.Stack
import LineScope.Text.Basic
import LineScope.Text.Hex
import LineScope.Text.Lines
import LineScope.Text.Quoted
import LineScope.Text.WholeNumber
import LineScope.Text.Words
import LineScope.Token
import LineScope.Unicode.Blank
import LineScope.Unicode.Case
import LineScope.Unicode.Identifier
import LineScope.Unicode.Letter
import LineScope.Unicode.Numeral
import LineScope.Unicode.Printable
import LineScope.Unicode.Ranges
import LineScope.Unicode.Word
import LineScope.Proofs.Scan.Resumption
import LineScope.Proofs.Scan.Sequence
import LineScope.Proofs.Document.Editing
import LineScope.Proofs.Engine.Bounds
import LineScope.Proofs.Grammar.Draft
import LineScope.Proofs.Grammar.Tables
import LineScope.Proofs.Capture.Projection
import LineScope.Proofs.Scan.Run
import LineScope.Proofs.Scan.Tiling
import LineScope.Proofs.Scan.Invariant
import LineScope.Proofs.Scan.Frames
import LineScope.Proofs.Scan.Progress
import LineScope.Proofs.Scan.Safety
import LineScope.Proofs.Scan.Shape
import LineScope.Proofs.Scan.Acceptance
import LineScope.Proofs.Grammar.Form
import LineScope.Proofs.Grammar.Numbering
import LineScope.Proofs.Grammar.Expansion
import LineScope.Proofs.Grammar.Flattening
import LineScope.Proofs.Grammar.WellFormed
import LineScope.Proofs.Capture.Sorting
import LineScope.Proofs.Capture.Labels
import LineScope.Proofs.Grammar.Reordering
import LineScope.Proofs.Grammar.Renumbering
import LineScope.Proofs.Grammar.Listing
import LineScope.Proofs.Grammar.Inclusion
import LineScope.Proofs.Grammar.Inventory
import LineScope.Proofs.Scan.Renumbering
import LineScope.Proofs.Scan.Reordering
import LineScope.Proofs.Scan.Validity
import LineScope.Proofs.Scan.Selection
import LineScope.Proofs.Stack.Cycle
import LineScope.Proofs.Scan.Turns
import LineScope.Proofs.Scan.Guard
import LineScope.Proofs.Scan.Events
import LineScope.Proofs.Scan.Matchers
import LineScope.Proofs.Document.Failure
import LineScope.Proofs.Json.Sorting
import LineScope.Proofs.Registry.Tables
import LineScope.Proofs.Registry.Course
import LineScope.Proofs.BackReference.Units
import LineScope.Proofs.Document.Range
import LineScope.Proofs.Pattern.Nesting
import LineScope.Proofs.Capture.Nesting
import LineScope.Proofs.Pattern.Literal
import LineScope.Proofs.Scan.BoundEnd
import LineScope.Proofs.Document.Division
import LineScope.Proofs.Registry.Lookup
import LineScope.Proofs.Grammar.Extension
import LineScope.Proofs.Scan.Extension
import LineScope.Proofs.Engine.Occurrence
import LineScope.Proofs.Scan.Brackets
import LineScope.Proofs.Scan.Limits
import LineScope.Proofs.Scan.Work
import LineScope.Proofs.Session.Profiles
import LineScope.Proofs.Json.Scalar
import LineScope.Proofs.Json.RoundTrip
import LineScope.Proofs.Json.Canonical
import LineScope.Proofs.Snapshot.Recovery
