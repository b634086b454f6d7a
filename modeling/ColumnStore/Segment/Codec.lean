import ColumnStore.Bitmap.Codec
import ColumnStore.Segment
import ColumnStore.Value.Codec

/-!
# Stored segments

A segment is stored as its kind, one byte; its capacity, four bytes; its presence bitmap; and the
cells of the present offsets in ascending order. A number takes eight bytes, a truth value one, an
id four, any other value its length in four bytes and its own stored form.

Reading makes room only up to the last present offset: the stored capacity is checked against the
chunk size and then dropped, and the chunk the segment joins grows it again.
-/

namespace ColumnStore

/-- The stored form of a cell. -/
def Cell.encode : Cell → Bytes
  | .float64 x => Bytes.ofNat 8 x.bits.toNat
  | .bool b => [if b then 1 else 0]
  | .enum id => Bytes.ofNat 4 id
  | .any v =>
    let encoded := v.encode
    Bytes.ofNat 4 encoded.length ++ encoded

/-- Reads a cell of a kind. Any byte but 0 is `true`. -/
def Cell.read : Kind → Reader Cell
  | .float64 => do
    let bits ← Reader.nat 8 "float value"
    pure (.float64 ⟨UInt64.ofNat bits⟩)
  | .bool => do
    let byte ← Reader.nat 1 "bool value"
    pure (.bool (byte != 0))
  | .enum => do
    let id ← Reader.nat 4 "enum value"
    pure (.enum id)
  | .any => do
    let length ← Reader.nat 4 "any value length"
    let bytes ← Reader.take length "any value"
    match Value.decode? bytes with
    | some v => pure (.any v)
    | none => Reader.fail .invalidValue

namespace Segment

/-- The stored form (`write_to`). -/
def encode (s : Segment) : Bytes :=
  Bytes.ofNat 1 s.kind.code ++ Bytes.ofNat 4 s.capacity ++ s.presence.encode
    ++ s.presence.toList.flatMap fun offset =>
      match s.cells.get? offset with
      | some cell => cell.encode
      | none => []

/-- The fewest bytes a cell of a kind is stored in. -/
def minCellSize : Kind → Nat
  | .float64 => 8
  | .bool => 1
  | .enum => 4
  | .any => 4

/-- Reads a segment of a kind for a chunk of `chunkSize` rows (`read_from`). -/
def read (kind : Kind) (chunkSize : Nat) : Reader Segment := do
  let code ← Reader.nat 1 "segment kind"
  match Kind.ofCode? code with
  | none => Reader.fail (.unknownKind code)
  | some found =>
    Reader.require (found = kind) (.segmentKind found kind)
    let capacity ← Reader.nat 4 "segment capacity"
    Reader.require (capacity ≤ chunkSize) (.segmentCapacity capacity chunkSize)
    let presence ← Bitmap.read
    let offsets := presence.toList
    Reader.require (offsets.all (· < capacity)) .segmentPresence
    Reader.requireLeft (offsets.length * minCellSize kind) (.truncated "Segment values")
    let cells ← offsets.mapM fun _ => Cell.read kind
    let used := (offsets.getLast?.map (· + 1)).getD 0
    pure ((offsets.zip cells).foldl (fun s (offset, cell) => s.put offset cell)
      (Segment.withCapacity kind used))

end Segment

end ColumnStore
