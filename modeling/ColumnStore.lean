import ColumnStore.Bitmap.Codec
import ColumnStore.Config.Text
import ColumnStore.Record
import ColumnStore.Snapshot
import ColumnStore.Transaction.Pass
import ColumnStore.Transaction.Reader
import ColumnStore.Tuning
import ColumnStore.Proofs.Bitmap
import ColumnStore.Proofs.Column
import ColumnStore.Proofs.Index
import ColumnStore.Proofs.Schema
import ColumnStore.Proofs.Chunk
import ColumnStore.Proofs.Chunk.Write
import ColumnStore.Proofs.Chunk.Delete
import ColumnStore.Proofs.Chunk.Rebuild
import ColumnStore.Proofs.Table
import ColumnStore.Proofs.Table.Define
import ColumnStore.Proofs.Table.Insert
import ColumnStore.Proofs.Table.Delete
import ColumnStore.Proofs.Row
import ColumnStore.Proofs.Transaction.Visit
import ColumnStore.Proofs.Transaction.Pass
import ColumnStore.Proofs.Transaction.Filter
import ColumnStore.Proofs.Reader
import ColumnStore.Proofs.Snapshot.Decode
import ColumnStore.Proofs.Snapshot.Load
import ColumnStore.Proofs.Session
import ColumnStore.Proofs.Session.Indexes
import ColumnStore.Proofs.Session.Queries
import ColumnStore.Proofs.Sheet
import ColumnStore.Proofs.Sheet.Table
import ColumnStore.Proofs.Sheet.Rows
import ColumnStore.Proofs.Session.Sheet
import ColumnStore.Proofs.Bytes
import ColumnStore.Proofs.Entries
import ColumnStore.Proofs.Value.Codec
import ColumnStore.Proofs.Segment.Codec
import ColumnStore.Proofs.Snapshot.Encode
import ColumnStore.Proofs.Snapshot.RoundTrip
import ColumnStore.Proofs.Session.Snapshot
import ColumnStore.Proofs.Session.Count
import ColumnStore.Proofs.Session.Readers
import ColumnStore.Proofs.Session.Insert
import ColumnStore.Proofs.Session.Atomic
import ColumnStore.Proofs.Scanner
import ColumnStore.Proofs.Segment.Scan
import ColumnStore.Proofs.Snapshot.Scan
import ColumnStore.Proofs.Session.Load
import ColumnStore.Proofs.Snapshot.Registered
import ColumnStore.Proofs.Snapshot.Prefix
import ColumnStore.Proofs.Session.Generations
import ColumnStore.Proofs.Session.Isolation
import ColumnStore.Proofs.Snapshot.Accepted
import ColumnStore.Proofs.Snapshot.Normal
import ColumnStore.Proofs.Session.Reload
import ColumnStore.Proofs.Binary64
import ColumnStore.Proofs.Session.Layout
import ColumnStore.Proofs.Relabelling
import ColumnStore.Proofs.Relabelling.Chunk
import ColumnStore.Proofs.Relabelling.Table
import ColumnStore.Proofs.Relabelling.Transaction
import ColumnStore.Proofs.Session.Creation
import ColumnStore.Proofs.Segment.Paths
import ColumnStore.Proofs.Transaction.Algebra
import ColumnStore.Proofs.Session.Filters
import ColumnStore.Proofs.Transaction.Walk
import ColumnStore.Proofs.Transaction.Record
import ColumnStore.Proofs.Session.Passes
import ColumnStore.Proofs.Session.Tombstones
import ColumnStore.Proofs.Segment.History
import ColumnStore.Proofs.Chunk.Order
import ColumnStore.Proofs.Session.Order
import ColumnStore.Proofs.Transaction.Edits
import ColumnStore.Proofs.Session.Detached
import ColumnStore.Proofs.Session.Nulls
import ColumnStore.Proofs.Segment.Stored
import ColumnStore.Proofs.Canonical
import ColumnStore.Proofs.Dictionary.Interner
import ColumnStore.Proofs.Dictionary.Ids
import ColumnStore.Proofs.Dictionary.History
import ColumnStore.Proofs.Bitmap.Algebra
import ColumnStore.Proofs.Bitmap.Enumeration
import ColumnStore.Proofs.Schema.Registry
import ColumnStore.Proofs.Snapshot.Registry
import ColumnStore.Proofs.Session.Registry
import ColumnStore.Proofs.Chunk.History
import ColumnStore.Proofs.Chunk.Checked
import ColumnStore.Proofs.Table.Lineage
import ColumnStore.Proofs.Session.Lineage
import ColumnStore.Proofs.Session.Lockstep
import ColumnStore.Proofs.Schema.Pool
import ColumnStore.Proofs.Session.Pool
import ColumnStore.Proofs.Session.Pinned
