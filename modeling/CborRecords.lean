import CborRecords.Program
import CborRecords.Walk
import CborRecords.Script
import CborRecords.Record.Debug
import CborRecords.Boundary.Record
import CborRecords.Boundary.Item
import CborRecords.Main
import CborRecords.Proofs.Utf8
import CborRecords.Proofs.Framing
import CborRecords.Proofs.Retrying
import CborRecords.Proofs.RoundTrip
import CborRecords.Proofs.RecordRoundTrip
import CborRecords.Proofs.RecordGrammar
import CborRecords.Proofs.Extending
import CborRecords.Proofs.Truncation
import CborRecords.Proofs.Mismatches
import CborRecords.Proofs.WholeItems
import CborRecords.Proofs.Counting
import CborRecords.Proofs.Canonical
import CborRecords.Proofs.Capacity
import CborRecords.Proofs.Ending
import CborRecords.Proofs.Locality
import CborRecords.Proofs.Keeping
import CborRecords.Proofs.Sequences
import CborRecords.Proofs.Printing
import CborRecords.Proofs.Lines
import CborRecords.Proofs.Unambiguous
import CborRecords.Proofs.Integers
import CborRecords.Proofs.Primitives
import CborRecords.Proofs.StringLengths
import CborRecords.Proofs.ErrorRange
import CborRecords.Proofs.Messages
import CborRecords.Proofs.Clipping
import CborRecords.Proofs.Attribution
import CborRecords.Proofs.Misfits
import CborRecords.Proofs.Explaining
import CborRecords.Proofs.ShortestForm
import CborRecords.Proofs.DepthLimit
import CborRecords.Proofs.Headers
import CborRecords.Proofs.Writes
import CborRecords.Proofs.JsonReading
import CborRecords.Proofs.JsonObjects
import CborRecords.Proofs.PersonJson
import CborRecords.Proofs.BoundedText
import CborRecords.Proofs.Rereading
import CborRecords.Proofs.CommandRuns
import CborRecords.Proofs.Pipeline
