import ColumnStore.Collection
import ColumnStore.Snapshot.Decode

/-!
# Snapshots of collections

A snapshot goes to a sink and is loaded from a source. A sink may have room for a number of bytes
only, a source may fail after the bytes it gave; either gives the text of its failure.

Loading replaces the contents and starts a new generation. If it fails, nothing changes.
-/

namespace ColumnStore

/-- Where a snapshot is written to. -/
structure Sink where
  /-- The bytes it takes in all; none if it takes any number. -/
  room : Option Nat
  /-- The text of its failure. -/
  failure : String

/-- Where a snapshot is read from. -/
structure Source where
  bytes : Bytes
  /-- The text of its failure after the bytes; none if it ends with them. -/
  failure : Option String

namespace Collection

/-- The bytes of the collection's snapshot. -/
def snapshot (c : Collection) : Bytes := Snapshot.encode c.chunkSize c.table

/-- Writes the snapshot to a sink (`snapshot`). -/
def writeSnapshot (c : Collection) (sink : Sink) : Except Error Bytes :=
  let bytes := c.snapshot
  match sink.room with
  | none => .ok bytes
  | some room => if bytes.length ≤ room then .ok bytes else .error (.io sink.failure)

/-- Replaces the contents by those of a snapshot. -/
def loadBytes (c : Collection) (bytes : Bytes) : Except Error Unit × Collection :=
  match Snapshot.decode c.chunkSize c.table.schema bytes with
  | .ok table => (.ok (), c.replaceTable table)
  | .error cause => (.error (.corruptSnapshot cause), c)

/-- Replaces the contents by those of the snapshot that a source gives (`load`). -/
def load (c : Collection) (source : Source) : Except Error Unit × Collection :=
  match source.failure with
  | some text => (.error (.io text), c)
  | none => c.loadBytes source.bytes

end Collection

end ColumnStore
