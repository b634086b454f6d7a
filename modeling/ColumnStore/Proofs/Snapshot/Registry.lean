import ColumnStore.Proofs.Schema.Registry
import ColumnStore.Proofs.Snapshot.Scan

/-!
# Registries from snapshots

A snapshot lists the columns and then the indexes; the slots are counted while they are read, and
written on the columns and indexes before these are registered. Here the snapshot is read into a
registry, and the registry that results mirrors the schema of the table that is read
(`Mirrors.decode`): the bytes are accepted alike, or refused for the same cause, and the count never
differs from the slot that comes next.
-/

namespace ColumnStore

namespace Registry

open Checked (Tracks)

/-! ## Readers with a registry in hand -/

/-- Reads a value off the front of some bytes, with every slot looked at. -/
abbrev Registrar (α : Type) := StateT Bytes (Except Stop) α

namespace Registrar

variable {α β γ δ : Type}

/-- A part of the snapshot that registers nothing. -/
def ofReader (x : Reader α) : Registrar α := fun bytes => (x bytes).mapError .corrupt

/-- A registration; a taken name is a fault of the snapshot. -/
def register (x : Checked α) : Registrar α := fun bytes =>
  match x with
  | .ok a => .ok (a, bytes)
  | .error (.refused e) => .error (.refused e.asCorrupt)
  | .error stop => .error stop

theorem bind_apply (x : Registrar α) (f : α → Registrar β) (bytes : Bytes) :
    (x >>= f) bytes =
      match x bytes with
      | .ok (a, rest) => f a rest
      | .error stop => .error stop := by
  show StateT.bind x f bytes = _
  unfold StateT.bind
  cases x bytes <;> rfl

/-- Of any bytes, both give things that go together and leave the same rest, or both refuse the
    bytes for the same cause. -/
def Follows (R : α → β → Prop) (x : Registrar α) (y : Reader β) : Prop :=
  ∀ bytes, (∃ a b rest, x bytes = .ok (a, rest) ∧ y bytes = .ok (b, rest) ∧ R a b) ∨
    ∃ cause, x bytes = .error (.corrupt cause) ∧ y bytes = .error cause

variable {R : α → β → Prop} {S : γ → δ → Prop} {x : Registrar α} {y : Reader β}

theorem Follows.pure {a : α} {b : β} (h : R a b) : Follows R (Pure.pure a) (Pure.pure b) :=
  fun bytes => .inl ⟨a, b, bytes, rfl, rfl, h⟩

/-- What is known of everything that is read. -/
theorem Follows.of_yields (h : Follows R x y) {P : β → Prop} (hP : Reader.Yields y P) :
    Follows (fun a b => R a b ∧ P b) x y := by
  intro bytes
  rcases h bytes with ⟨a, b, rest, hx, hy, hR⟩ | hrefused
  · exact .inl ⟨a, b, rest, hx, hy, hR, hP bytes b rest hy⟩
  · exact .inr hrefused

theorem Follows.bind (h : Follows R x y) {f : α → Registrar γ} {g : β → Reader δ}
    (hf : ∀ a b, R a b → Follows S (f a) (g b)) : Follows S (x >>= f) (y >>= g) := by
  intro bytes
  rw [bind_apply, Reader.bind_apply]
  rcases h bytes with ⟨a, b, rest, hx, hy, hR⟩ | ⟨cause, hx, hy⟩
  · rw [hx, hy]
    exact hf a b hR rest
  · rw [hx, hy]
    exact .inr ⟨cause, rfl, rfl⟩

theorem follows_ofReader (y : Reader α) : Follows Eq (ofReader y) y := by
  intro bytes
  unfold ofReader
  cases y bytes with
  | ok result => exact .inl ⟨result.1, result.1, result.2, rfl, rfl, rfl⟩
  | error cause => exact .inr ⟨cause, rfl, rfl⟩

/-- A part that registers nothing is read alike by both. -/
theorem Follows.reader_bind (y : Reader α) {f : α → Registrar γ} {g : α → Reader δ}
    (hf : ∀ a, Follows S (f a) (g a)) : Follows S (ofReader y >>= f) (y >>= g) :=
  (follows_ofReader y).bind fun a _ h => h ▸ hf a

end Registrar

open Registrar (ofReader register Follows)

/-! ## Snapshots -/

/-- Reads `n` columns, the first of which comes to `slot`. -/
def readColumns (chunkSize chunkCount : Nat) :
    (n slot : Nat) → Registry → Registrar (Registry × List Snapshot.StoredColumn)
  | 0, _, r => pure (r, [])
  | n + 1, slot, r => do
    let stored ← ofReader (Snapshot.readColumn chunkSize chunkCount)
    let r ← register (r.withColumnDef ⟨stored.column, slot⟩)
    let (r, rest) ← readColumns chunkSize chunkCount n (slot + 1) r
    pure (r, stored :: rest)

/-- The predicate registered for an index of a name and source. -/
def registered? (registered : Registry) (name source : String) : Option (Value → Bool) :=
  match registered.index? name with
  | some index => if index.source = source then index.predicate else none
  | none => none

/-- Reads an index that comes to `slot`, with its bitmaps. -/
def readIndex (registered r : Registry) (chunkSize chunkCount slot : Nat) :
    Registrar (PlacedIndex × List Bitmap) := do
  let name ← ofReader (Reader.string "index name")
  let source ← ofReader (Reader.string "index source")
  match r.column? source with
  | none => ofReader (Reader.fail (.unknownSource name source))
  | some column =>
    let predicate := registered.registered? name source
    let bitmaps ← ofReader (Reader.replicate (Snapshot.readIndexBitmap name chunkSize) chunkCount)
    pure (.ofColumn name column slot predicate, bitmaps)

/-- Reads `n` indexes, the first of which comes to `slot`. -/
def readIndexes (registered : Registry) (chunkSize chunkCount : Nat) :
    (n slot : Nat) → Registry → Registrar (Registry × List Snapshot.StoredIndex)
  | 0, _, r => pure (r, [])
  | n + 1, slot, r => do
    let (index, bitmaps) ← readIndex registered r chunkSize chunkCount slot
    let r ← register (r.withIndex index)
    let (r, rest) ← readIndexes registered chunkSize chunkCount n (slot + 1) r
    pure (r, ⟨index.toIndex, bitmaps⟩ :: rest)

/-- Reads a whole snapshot into a registry and a table. -/
def read (chunkSize : Nat) (registered : Registry) : Registrar (Registry × Table) := do
  let front ← ofReader (Reader.take 4 "magic")
  ofReader (Reader.require (front = Snapshot.magic) .magic)
  let found ← ofReader (Reader.nat 2 "version")
  ofReader (Reader.require (found = Snapshot.version) (.version found))
  let size ← ofReader (Reader.nat 4 "chunk size")
  ofReader (Reader.require (size = chunkSize) (.chunkSize size chunkSize))
  let chunkCount ← ofReader (Reader.nat 4 "chunk count")
  ofReader (Reader.requireLeft (chunkCount * 4) (.chunkCount chunkCount))
  let columnCount ← ofReader (Reader.nat 4 "column count")
  let (r, columns) ← readColumns chunkSize chunkCount columnCount 0 .empty
  let indexCount ← ofReader (Reader.nat 4 "index count")
  let (r, indexes) ← readIndexes registered chunkSize chunkCount indexCount 0 r
  let watermark ← ofReader (Reader.nat 8 "row watermark")
  let live ← ofReader (Reader.nat 8 "live count")
  ofReader (Reader.require (watermark ≤ chunkCount * chunkSize) (.watermark watermark chunkCount))
  let fills ← ofReader (Snapshot.readFills chunkSize watermark chunkCount 0)
  let counted := (fills.map Bitmap.count).foldr (· + ·) 0
  ofReader (Reader.require (counted = live) (.liveCount live counted))
  ofReader Reader.finish
  let segments := columns.map fun stored => stored.segments.toArray
  let bitmaps := indexes.map fun stored => stored.bitmaps.toArray
  pure (r, Snapshot.revalidate
    { schema := r.toSchema
      dictionaries := (columns.map Snapshot.StoredColumn.dictionary).toArray
      chunks := (fills.zipIdx.map fun (fill, id) =>
        Snapshot.assemble chunkSize segments bitmaps id fill).toArray
      nextRow := watermark
      live })

/-- The registry and the table that a snapshot holds. -/
def decode (chunkSize : Nat) (registered : Registry) (bytes : Bytes) :
    Checked (Registry × Table) :=
  (read chunkSize registered bytes).map Prod.fst

/-! ## Mirrors -/

/-- A registry with what was read beside it goes with the schema and the same. -/
abbrev Keeps {α : Type} (a : Registry × α) (b : Schema × α) : Prop := a.1.Mirrors b.1 ∧ a.2 = b.2

/-- A registration, and a reader that goes on as the schema does: where this refuses a taken name,
    the reader refuses the bytes for it. -/
theorem follows_register {x : Checked Registry} {y : Except Error Schema}
    (h : Tracks Mirrors x y) {α β : Type} {S : α → β → Prop} {f : Registry → Registrar α}
    {z : Reader β}
    (hok : ∀ r schema, y = .ok schema → Mirrors r schema → Follows S (f r) z)
    (herror : ∀ e, y = .error e →
      ∃ name, e = .duplicateName name ∧ z = Reader.fail (.duplicateName name)) :
    Follows S (register x >>= f) z := by
  intro bytes
  cases h with
  | ok hmirrors => exact hok _ _ rfl hmirrors bytes
  | refused e =>
    obtain ⟨name, rfl, rfl⟩ := herror e rfl
    exact .inr ⟨_, rfl, rfl⟩

namespace Mirrors

variable {r registered : Registry} {schema known : Schema}

theorem follows_readColumns (h : Mirrors r schema) (chunkSize chunkCount n : Nat) :
    Follows Keeps (readColumns chunkSize chunkCount n r.columns.size r)
      (Snapshot.readColumns chunkSize chunkCount n schema) := by
  -- the count goes along with the columns, so every column is made for the slot it comes to
  induction n generalizing r schema with
  | zero => exact Follows.pure ⟨h, rfl⟩
  | succ n ih =>
    refine Follows.reader_bind _ fun stored => ?_
    refine follows_register (h.withColumnDef stored.column) (fun r' schema' hadded h' => ?_)
      fun e herror => ⟨_, Schema.error_of_addColumn herror, by rw [herror]⟩
    have hsize : r.columns.size + 1 = r'.columns.size := by
      rw [h.columns_size, h'.columns_size, (Schema.eq_of_addColumn hadded).2, Array.size_push]
    rw [hsize, hadded]
    refine (ih h').bind fun a b hab => ?_
    exact Follows.pure ⟨hab.1, congrArg (stored :: ·) hab.2⟩

theorem registered?_eq (h : Mirrors registered known) (name source : String) :
    registered.registered? name source = Snapshot.registered? known name source := by
  unfold Registry.registered? Snapshot.registered?
  rw [h.index?_eq]
  cases known.index? name <;> rfl

/-- An index is made for its slot, over the column that is in its source slot. -/
theorem follows_readIndex (h : Mirrors r schema) (hregistered : Mirrors registered known)
    (chunkSize chunkCount slot : Nat) :
    Follows (fun made stored => made.1 = ⟨stored.index, slot⟩ ∧ made.2 = stored.bitmaps ∧
        ∃ column, schema.columns[stored.index.sourceSlot]? = some column ∧
          column.name = stored.index.source)
      (readIndex registered r chunkSize chunkCount slot)
      (Snapshot.readIndex known schema chunkSize chunkCount) := by
  refine Follows.reader_bind _ fun name => Follows.reader_bind _ fun source => ?_
  rw [h.column?_eq]
  cases hcolumn : schema.column? source with
  | none => exact fun bytes => .inr ⟨_, rfl, rfl⟩
  | some found =>
    obtain ⟨sourceSlot, column⟩ := found
    obtain ⟨hc, rfl⟩ := Schema.exists_of_column? hcolumn
    refine Follows.reader_bind _ fun bitmaps => Follows.pure ⟨?_, rfl, column, hc, rfl⟩
    rw [hregistered.registered?_eq]
    rfl

theorem follows_readIndexes (h : Mirrors r schema) (hregistered : Mirrors registered known)
    (chunkSize chunkCount n : Nat) :
    Follows Keeps (readIndexes registered chunkSize chunkCount n r.indexes.size r)
      (Snapshot.readIndexes known chunkSize chunkCount n schema) := by
  induction n generalizing r schema with
  | zero => exact Follows.pure ⟨h, rfl⟩
  | succ n ih =>
    refine (h.follows_readIndex hregistered chunkSize chunkCount _).bind ?_
    rintro ⟨index, bitmaps⟩ stored ⟨hindex, hbitmaps, column, hc, hname⟩
    cases hindex
    cases hbitmaps
    refine follows_register (h.withIndex hc hname) (fun r' schema' hadded h' => ?_)
      fun e herror => ⟨_, Schema.error_of_addIndex herror, by rw [herror]⟩
    have hsize : r.indexes.size + 1 = r'.indexes.size := by
      rw [h.indexes_size, h'.indexes_size, (Schema.eq_of_addIndex hadded).2, Array.size_push]
    rw [hsize, hadded]
    refine (ih h').bind fun a b hab => ?_
    exact Follows.pure ⟨hab.1, congrArg (stored :: ·) hab.2⟩

theorem follows_read (h : Mirrors registered known) (chunkSize : Nat) :
    Follows (fun made table => made.1.Mirrors table.schema ∧ made.2 = table)
      (Registry.read chunkSize registered) (Snapshot.read chunkSize known) := by
  refine Follows.reader_bind _ fun front => Follows.reader_bind _ fun _ => ?_
  refine Follows.reader_bind _ fun found => Follows.reader_bind _ fun _ => ?_
  refine Follows.reader_bind _ fun size => Follows.reader_bind _ fun _ => ?_
  refine Follows.reader_bind _ fun chunkCount => Follows.reader_bind _ fun _ => ?_
  refine Follows.reader_bind _ fun columnCount => ?_
  refine ((mirrors_empty.follows_readColumns chunkSize chunkCount columnCount).of_yields
    (Snapshot.yields_readColumns chunkSize chunkCount columnCount Schema.wellFormed_empty)).bind ?_
  rintro ⟨r₁, columns⟩ ⟨schema₁, _⟩ ⟨⟨h₁, rfl⟩, -, hindexes, -⟩
  refine Follows.reader_bind _ fun indexCount => ?_
  have hnone : r₁.indexes.size = 0 := by
    rw [h₁.indexes_size, hindexes]
    rfl
  have hread := h₁.follows_readIndexes h chunkSize chunkCount indexCount
  rw [hnone] at hread
  refine hread.bind ?_
  rintro ⟨r₂, indexes⟩ ⟨schema₂, _⟩ ⟨h₂, rfl⟩
  refine Follows.reader_bind _ fun watermark => Follows.reader_bind _ fun live => ?_
  refine Follows.reader_bind _ fun _ => Follows.reader_bind _ fun fills => ?_
  refine Follows.reader_bind _ fun _ => Follows.reader_bind _ fun _ => ?_
  rw [h₂.toSchema_eq]
  exact Follows.pure ⟨h₂, rfl⟩

/-- The bytes are accepted with the table that is read from them and a registry that mirrors its
    schema, or refused for the cause that is read. -/
theorem decode (h : Mirrors registered known) (chunkSize : Nat) (bytes : Bytes) :
    (∃ r table, Registry.decode chunkSize registered bytes = .ok (r, table) ∧
      Snapshot.decode chunkSize known bytes = .ok table ∧ r.Mirrors table.schema) ∨
    ∃ cause, Registry.decode chunkSize registered bytes = .error (.corrupt cause) ∧
      Snapshot.decode chunkSize known bytes = .error cause := by
  unfold Registry.decode Snapshot.decode
  rcases h.follows_read chunkSize bytes with ⟨⟨r, _⟩, table, rest, hx, hy, hr, rfl⟩ |
    ⟨cause, hx, hy⟩
  · exact .inl ⟨r, _, by rw [hx]; rfl, by rw [hy]; rfl, hr⟩
  · exact .inr ⟨cause, by rw [hx]; rfl, by rw [hy]; rfl⟩

end Mirrors

end Registry

end ColumnStore
