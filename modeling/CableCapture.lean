import CableCapture.Archive.Checksum
import CableCapture.Archive.Codec
import CableCapture.Archive.Gzip
import CableCapture.Archive.History
import CableCapture.Archive.Inflate
import CableCapture.Archive.Input
import CableCapture.Archive.Lz4
import CableCapture.Archive.Zstd
import CableCapture.Bytes.Chunks
import CableCapture.Bytes.Word
import CableCapture.Capture
import CableCapture.CaptureIndex
import CableCapture.CaptureStore
import CableCapture.Disk
import CableCapture.Envelope
import CableCapture.Fault
import CableCapture.Folder
import CableCapture.Gregorian
import CableCapture.Header
import CableCapture.Kind
import CableCapture.Libraries
import CableCapture.MacAddress
import CableCapture.Main
import CableCapture.Numeric.Binary64
import CableCapture.Numeric.Complex
import CableCapture.Numeric.FixedPoint
import CableCapture.Numeric.Shortest
import CableCapture.Numeric.SignedNumber
import CableCapture.Numeric.Statistics
import CableCapture.Proofs.Answers
import CableCapture.Proofs.Reader.Fields
import CableCapture.Proofs.Reader.Framing
import CableCapture.Reader
import CableCapture.Record.Basic
import CableCapture.Record.ChannelEstimate
import CableCapture.Record.Constellation
import CableCapture.Record.FecSummary
import CableCapture.Record.Histogram
import CableCapture.Record.ModulationProfile
import CableCapture.Record.PreEqualization
import CableCapture.Record.RxMer
import CableCapture.Record.Spectrum
import CableCapture.Record.SymbolCapture
import CableCapture.Report
import CableCapture.ReportText
import CableCapture.Session
import CableCapture.Settings
import CableCapture.Text.Blank
import CableCapture.Text.Hex
import CableCapture.Text.Json
import CableCapture.Text.Path
import CableCapture.Text.Utf8
import CableCapture.Timestamp
import CableCapture.Proofs.Chunks
import CableCapture.Proofs.Record.Items
import CableCapture.Proofs.Record.Payloads
import CableCapture.Proofs.Capture.Framing
import CableCapture.Proofs.Capture.Identity
import CableCapture.Proofs.Index.Invariant
import CableCapture.Proofs.Index.Stages
import CableCapture.Proofs.Report.Fleet
import CableCapture.Proofs.Report.Stages
import CableCapture.Proofs.Numeric.Mantissa
import CableCapture.Proofs.Numeric.Unpacked
import CableCapture.Proofs.Numeric.Bits
import CableCapture.Proofs.Numeric.Arithmetic
import CableCapture.Proofs.Numeric.Powers
import CableCapture.Proofs.Numeric.Codes
import CableCapture.Proofs.Numeric.FixedPoint
import CableCapture.Proofs.Numeric.Comparison
import CableCapture.Proofs.Record.Codes
import CableCapture.Proofs.Capture.Header
import CableCapture.Proofs.Capture.Recovery
import CableCapture.Proofs.Reader.Front
import CableCapture.Proofs.Capture.Identification
import CableCapture.Proofs.Store.Queries
import CableCapture.Proofs.Store.Runs
import CableCapture.Proofs.Store.NestedMaps
import CableCapture.Proofs.Report.Aggregation
import CableCapture.Proofs.Index.Summary
import CableCapture.Proofs.StableSort
import CableCapture.Proofs.Text.Addresses
import CableCapture.Proofs.Index.NormalForm
import CableCapture.Proofs.Store.Survivors
import CableCapture.Proofs.Store.NewestSummary
import CableCapture.Proofs.Index.Channels
import CableCapture.Proofs.Report.Rows
import CableCapture.Proofs.Report.Accounting
import CableCapture.Proofs.Report.Attribution
import CableCapture.Proofs.Index.Devices
import CableCapture.Proofs.Report.Isolation
import CableCapture.Proofs.Text.Utf8
import CableCapture.Proofs.Reader.Faults
import CableCapture.Proofs.Record.Faults
import CableCapture.Proofs.Capture.WireForm
import CableCapture.Proofs.Capture.Registry
import CableCapture.Proofs.Capture.Dispatch
import CableCapture.Proofs.Numeric.RoundTrip
import CableCapture.Proofs.Reader.Stops
import CableCapture.Proofs.Record.FecGrammar
import CableCapture.Proofs.Record.ModulationGrammar
import CableCapture.Proofs.Reader.Positions
import CableCapture.Proofs.Record.ArrayLengths
import CableCapture.Proofs.FirstOccurrences
import CableCapture.Proofs.Index.FirstSeen
import CableCapture.Proofs.Index.Rebuild
import CableCapture.Proofs.Report.FileOrder
import CableCapture.Proofs.Numeric.Streams
import CableCapture.Proofs.Record.Counters
import CableCapture.Proofs.Store.Totals
import CableCapture.Proofs.Capture.Integers
import CableCapture.Proofs.Numeric.Order
import CableCapture.Proofs.Record.Segments
import CableCapture.Proofs.Numeric.Infinity
import CableCapture.Proofs.Numeric.Places
import CableCapture.Proofs.Numeric.Precision
import CableCapture.Proofs.Numeric.Folds
import CableCapture.Proofs.Envelope
import CableCapture.Proofs.Store.Envelopes
import CableCapture.Proofs.Text.Digits
import CableCapture.Proofs.Text.Offsets
import CableCapture.Proofs.Text.Spelling
import CableCapture.Proofs.Report.DeviceOrder
import CableCapture.Proofs.Folder
import CableCapture.Proofs.Disk
import CableCapture.Proofs.Numeric.Copies
import CableCapture.Proofs.ConstantSignals
import CableCapture.Proofs.Numeric.Nearest
import CableCapture.Proofs.Numeric.BitOrder
import CableCapture.Proofs.Numeric.Shares
import CableCapture.Proofs.Record.MainTap
import CableCapture.Proofs.Reader.Cursor
import CableCapture.Proofs.Numeric.BitCount
import CableCapture.Proofs.Numeric.CheckedCodes
