import SortedTables.Bytes
import SortedTables.Utf8
import SortedTables.Hex
import SortedTables.Crc32
import SortedTables.Decimal
import SortedTables.Key
import SortedTables.Entry
import SortedTables.Step
import SortedTables.Block.Format
import SortedTables.Block.Builder
import SortedTables.Block.Cursor
import SortedTables.Disk
import SortedTables.Table.Index
import SortedTables.Table.Footer
import SortedTables.Table.Basic
import SortedTables.Table.Builder
import SortedTables.Dump.Range
import SortedTables.Dump.Line
import SortedTables.Dump.Stream
import SortedTables.Fault
import SortedTables.Cursor.Basic
import SortedTables.Cursor.Bounded
import SortedTables.Cursor.Fused
import SortedTables.Cursor.Merge
import SortedTables.Cursor.Scripted
import SortedTables.Cursor.Nested
import SortedTables.Table.LiveCursor
import SortedTables.Capability
import SortedTables.RawScan
import SortedTables.TableSource
import SortedTables.KeyStream
import SortedTables.FileSet
import SortedTables.CommandLine
import SortedTables.Main
import SortedTables.Proofs.Order
import SortedTables.Proofs.Block.RoundTrip
import SortedTables.Proofs.Table.Filling
import SortedTables.Proofs.Table.Opening
import SortedTables.Proofs.Table.Reading
import SortedTables.Proofs.Table.Blocks
import SortedTables.Proofs.Table.Canonical
import SortedTables.Proofs.Cursor.Walk
import SortedTables.Proofs.Cursor.Streaming
import SortedTables.Proofs.Cursor.Runs
import SortedTables.Proofs.Cursor.MergeSteps
import SortedTables.Proofs.Cursor.Merging
import SortedTables.Proofs.Table.LiveReading
import SortedTables.Proofs.Table.Seeking
import SortedTables.Proofs.Dump.Lines
import SortedTables.Proofs.Dump.Rendering
import SortedTables.Proofs.Dump.Scanning
import SortedTables.Proofs.FileSet.Source
import SortedTables.Proofs.FileSet.Streams
import SortedTables.Proofs.FileSet.Reading
import SortedTables.Proofs.FileSet.Damage
import SortedTables.Proofs.Cursor.Draining
import SortedTables.Proofs.Cursor.MergedLists
import SortedTables.Proofs.Cursor.FailingSources
import SortedTables.Proofs.Dump.Lossless
import SortedTables.Proofs.Dump.Text
import SortedTables.Proofs.Dump.Command
import SortedTables.Proofs.Cursor.Calls
import SortedTables.Proofs.Dump.ToolScan
import SortedTables.Proofs.Dump.Grammar
import SortedTables.Proofs.Dump.Exactness
import SortedTables.Proofs.Table.Reopening
import SortedTables.Proofs.Table.Refusing
import SortedTables.Proofs.Checksum
import SortedTables.Proofs.Table.Corruption
import SortedTables.Proofs.Cursor.Watching
import SortedTables.Proofs.Cursor.LifeCycle
import SortedTables.Proofs.Cursor.Conveying
import SortedTables.Proofs.Cursor.Releasing
import SortedTables.Proofs.Cursor.Unaffected
import SortedTables.Proofs.Table.Unaffected
import SortedTables.Proofs.Dump.Unaffected
import SortedTables.Proofs.Dump.Untrusted
import SortedTables.Proofs.FileSet.Unaffected
import SortedTables.Proofs.Dump.Portions
import SortedTables.Proofs.Unchecked.Access
import SortedTables.Proofs.Unchecked.Opening
import SortedTables.Proofs.Unchecked.Blocks
import SortedTables.Proofs.Unchecked.Walking
import SortedTables.Proofs.Unchecked.Live
import SortedTables.Proofs.Unchecked.Dump
import SortedTables.Proofs.Unchecked.Outcomes
import SortedTables.Proofs.Block.Offering
import SortedTables.Proofs.Dump.Filtered
import SortedTables.Proofs.Cursor.Bounding
import SortedTables.Proofs.Dump.Language
import SortedTables.Proofs.FileSet.Relisting
import SortedTables.Proofs.Cursor.SeekingMerges
import SortedTables.Proofs.Cursor.Retrying
import SortedTables.Proofs.Block.Seeking
import SortedTables.Proofs.Block.Limits
import SortedTables.Proofs.FileSet.Estimating
