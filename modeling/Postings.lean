import Postings.Algebra.Apply
import Postings.Algebra.Many
import Postings.Algebra.Merge
import Postings.Algebra.Sweep
import Postings.Algebra.Writer
import Postings.Build
import Postings.ByteSize
import Postings.Bytes.Little
import Postings.Bytes.Packed
import Postings.Bytes.Reader
import Postings.Bytes.Slice
import Postings.Bytes.Varint
import Postings.Bytes.Zigzag
import Postings.Cli.Args
import Postings.Cli.Command
import Postings.Cli.Report
import Postings.Cli.Run
import Postings.Codec
import Postings.Config
import Postings.Decimal
import Postings.Error
import Postings.Factory
import Postings.Failure
import Postings.Host
import Postings.Item
import Postings.ItemSet.Basic
import Postings.ItemSet.Builder
import Postings.ItemSet.Cursor
import Postings.ItemSet.Decode
import Postings.ItemSet.Describe
import Postings.ItemSet.Encode
import Postings.Json.Parser
import Postings.Json.Value
import Postings.Layout.Compact
import Postings.Layout.Frame
import Postings.Layout.Line
import Postings.Layout.Native
import Postings.Layout.Progression
import Postings.Main
import Postings.Names
import Postings.Power
import Postings.Proofs.Algebra.Apply
import Postings.Proofs.Algebra.Codecs
import Postings.Proofs.Algebra.Combine
import Postings.Proofs.Algebra.Limited
import Postings.Proofs.Algebra.Many
import Postings.Proofs.Algebra.Merge
import Postings.Proofs.Algebra.Schedule
import Postings.Proofs.Algebra.Size
import Postings.Proofs.Algebra.Stopping
import Postings.Proofs.Algebra.Sweep
import Postings.Proofs.Build
import Postings.Proofs.Build.Lines
import Postings.Proofs.Build.Spelling
import Postings.Proofs.Bytes.Cuts
import Postings.Proofs.Bytes.Digits
import Postings.Proofs.Bytes.Guarded
import Postings.Proofs.Bytes.Numerals
import Postings.Proofs.Bytes.Packing
import Postings.Proofs.Bytes.Positions
import Postings.Proofs.Bytes.Reads
import Postings.Proofs.Bytes.Varints
import Postings.Proofs.Cli.Combine
import Postings.Proofs.Factory
import Postings.Proofs.Factory.Acceptance
import Postings.Proofs.Factory.Answers
import Postings.Proofs.Factory.Batches
import Postings.Proofs.Factory.Capacity
import Postings.Proofs.Factory.Encoding
import Postings.Proofs.Factory.Full
import Postings.Proofs.Factory.Identity
import Postings.Proofs.Factory.Ids
import Postings.Proofs.Factory.Lookup
import Postings.Proofs.Factory.Plan
import Postings.Proofs.Factory.Recoding
import Postings.Proofs.Factory.Reinsertion
import Postings.Proofs.Factory.Verification
import Postings.Proofs.Host
import Postings.Proofs.ItemSet.Builder
import Postings.Proofs.ItemSet.Canonical
import Postings.Proofs.ItemSet.Complete
import Postings.Proofs.ItemSet.Decode
import Postings.Proofs.ItemSet.Delimited
import Postings.Proofs.ItemSet.Density
import Postings.Proofs.ItemSet.Encode
import Postings.Proofs.ItemSet.Full
import Postings.Proofs.ItemSet.Guarded
import Postings.Proofs.ItemSet.Items
import Postings.Proofs.ItemSet.Progressions
import Postings.Proofs.ItemSet.Proper
import Postings.Proofs.ItemSet.Recode
import Postings.Proofs.ItemSet.Records
import Postings.Proofs.Layout.Compact
import Postings.Proofs.Layout.Frame
import Postings.Proofs.Layout.Guarded
import Postings.Proofs.Layout.Line
import Postings.Proofs.Layout.Native
import Postings.Proofs.Layout.Progression
import Postings.Proofs.Layout.Slopes
import Postings.Proofs.Layout.Width
import Postings.Proofs.Obtainable
import Postings.Proofs.Search
import Postings.Proofs.Search.Words
import Postings.Proofs.Source
import Postings.Proofs.Store.Basic
import Postings.Proofs.Store.Caching
import Postings.Proofs.Store.Exact
import Postings.Proofs.Store.Flush
import Postings.Proofs.Store.Opening
import Postings.Proofs.Store.Partition
import Postings.Proofs.Store.Stats
import Postings.Proofs.Text
import Postings.Search
import Postings.SetOp
import Postings.Source
import Postings.Store.Basic
import Postings.Store.Cache
import Postings.Store.Header
import Postings.Store.Stats
import Postings.Text.Blank
import Postings.Text.Casing
import Postings.Text.Lines
import Postings.Text.Lowercase
import Postings.Text.Numeral
import Postings.Walk
