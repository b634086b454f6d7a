import ColumnStore.Transaction
import ColumnStore.Transaction.Visit

/-!
# Passes

A pass over a column runs a visit at every selected row that is live, in ascending order, and stops
at the first that says so or fails. What the visits write takes effect at once; which rows are
visited in a chunk is settled when the pass comes to it.

A pass works under the newest schema, so that a write keeps up indexes created since the transaction
opened; if the contents were retired meanwhile, under the schema of the transaction.

A visit is given the row and a state that the pass carries along; it ends with the next state and
with `true` to go on, `false` to stop, or an error to stop with.
-/

namespace ColumnStore

namespace Transaction

variable {σ : Type}

/-- What is done at each row. -/
abbrev Visitor (σ : Type) := σ → Nat → Visit (σ × Except Error Bool)

/-- Visits rows of one chunk, given by their offsets. -/
def visitOffsets (visitor : Visitor σ) (cursor : Nat → Cursor) (base : Nat) :
    List Nat → σ → Array Dictionary → Chunk → (σ × Except Error Bool) × Array Dictionary × Chunk
  | [], state, dictionaries, chunk => ((state, .ok true), dictionaries, chunk)
  | offset :: rest, state, dictionaries, chunk =>
    match (cursor offset).run (visitor state (base + offset)) dictionaries chunk with
    | ((state, .ok true), dictionaries, chunk) =>
      visitOffsets visitor cursor base rest state dictionaries chunk
    | stopped => stopped

/-- Visits the selected live rows of the chunks from `id` on. -/
def visitChunks (visitor : Visitor σ) (cursor : Nat → Cursor) (chunkSize : Nat) :
    List Bitmap → (id : Nat) → σ → Array Dictionary → Array Chunk →
      (σ × Except Error Bool) × Array Dictionary × Array Chunk
  | [], _, state, dictionaries, chunks => ((state, .ok true), dictionaries, chunks)
  | bits :: rest, id, state, dictionaries, chunks =>
    if bits.isEmpty then
      visitChunks visitor cursor chunkSize rest (id + 1) state dictionaries chunks
    else
      match updateAt Table.noChunk chunks id fun chunk =>
        let live := (bits.and chunk.fill).toList
        let (ended, dictionaries, chunk) :=
          visitOffsets visitor cursor (id * chunkSize) live state dictionaries chunk
        ((ended, dictionaries), chunk) with
      | (some ((state, .ok true), dictionaries), chunks) =>
        visitChunks visitor cursor chunkSize rest (id + 1) state dictionaries chunks
      | (some (stopped, dictionaries), chunks) => (stopped, dictionaries, chunks)
      | (none, chunks) => ((state, .ok true), dictionaries, chunks)

/-- The schema that a pass works under. -/
def passSchema (t : Transaction) (c : Collection) : Schema :=
  if t.generation = c.generation then c.table.schema else t.schema

/-- Runs a pass over a column (`range_column`). Gives the state that the visits left, whether the
    pass went well, and the collection then. -/
def pass (t : Transaction) (c : Collection) (name : String) (visitor : Visitor σ) (state : σ) :
    σ × Except Error Unit × Collection :=
  match t.column name with
  | .error e => (state, .error e, c)
  | .ok (slot, column) =>
    let schema := t.passSchema c
    let chunkSize := c.chunkSize
    let ((state, ended), c) := c.changeTable t.generation fun table =>
      let (ended, dictionaries, chunks) :=
        visitChunks visitor (fun offset => ⟨schema, slot, column, offset⟩) chunkSize
          t.selection.toList 0 state table.dictionaries table.chunks
      (ended, { table with dictionaries, chunks })
    (state, ended.map fun _ => (), c)

end Transaction

end ColumnStore
