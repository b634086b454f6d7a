import ColumnStore.Proofs.Bytes
import ColumnStore.Proofs.Snapshot.Load

/-!
# What a snapshot owes to registered predicates

Whether bytes are accepted as a snapshot does not depend on the predicates that the collection has
registered, and what is made of them depends on these only in the end: the bytes are read as they
are read where nothing is registered, then the indexes take the registered predicates, then they are
compared with them (`decode_eq`).

`Maps x y f`: the reader `x` does what `y` does and gives what `f` makes of its result.
-/

namespace ColumnStore

namespace Reader

variable {α β γ δ : Type}

/-- A reader that does what another does and gives what a function makes of the result. -/
def Maps (x : Reader α) (y : Reader β) (f : β → α) : Prop :=
  ∀ bytes, x bytes = (y bytes).map fun result => (f result.1, result.2)

variable {x : Reader α} {y : Reader β} {f : β → α}

theorem Maps.refl (x : Reader α) : Maps x x id := by
  intro bytes
  cases x bytes <;> rfl

theorem Maps.pure {a : α} {b : β} (h : a = f b) : Maps (Pure.pure a) (Pure.pure b) f := by
  subst h
  exact fun _ => rfl

theorem Maps.fail (cause : Corruption) (f : β → α) :
    Maps (Reader.fail cause) (Reader.fail cause) f := fun _ => rfl

/-- Readers that go on alike with what the first ones give, as far as these can give it. -/
theorem Maps.bind_of {P : β → Prop} (h : Maps x y f) (hP : Yields y P) {k : α → Reader γ}
    {l : β → Reader δ} {g : δ → γ} (hk : ∀ b, P b → Maps (k (f b)) (l b) g) :
    Maps (x >>= k) (y >>= l) g := by
  intro bytes
  rw [bind_apply, bind_apply, h bytes]
  cases hy : y bytes with
  | error cause => rfl
  | ok result => exact hk result.1 (hP bytes result.1 result.2 hy) result.2

theorem Maps.bind (h : Maps x y f) {k : α → Reader γ} {l : β → Reader δ} {g : δ → γ}
    (hk : ∀ b, Maps (k (f b)) (l b) g) : Maps (x >>= k) (y >>= l) g :=
  h.bind_of (Yields.trivial y) fun b _ => hk b

/-- Readers that begin with the same one. -/
theorem Maps.same_bind (z : Reader β) {k : β → Reader γ} {l : β → Reader δ} {g : δ → γ}
    (hk : ∀ b, Maps (k b) (l b) g) : Maps (z >>= k) (z >>= l) g :=
  (Maps.refl z).bind hk

end Reader

open Reader (Maps Yields)

/-! ## Giving indexes the predicates that are registered -/

/-- The index with the predicate that is registered for its name and source. -/
def Index.registeredIn (index : Index) (registered : Schema) : Index :=
  { index with predicate := Snapshot.registered? registered index.name index.source }

/-- The schema with the predicates that are registered for its indexes. -/
def Schema.registeredIn (schema registered : Schema) : Schema :=
  { schema with indexes := schema.indexes.map (·.registeredIn registered) }

/-- The table with the predicates that are registered for its indexes. -/
def Table.registeredIn (table : Table) (registered : Schema) : Table :=
  { table with schema := table.schema.registeredIn registered }

namespace Schema

variable (schema registered : Schema)

theorem map_name_registeredIn :
    (schema.registeredIn registered).indexes.toList.map Index.name =
      schema.indexes.toList.map Index.name := by
  rw [registeredIn, Array.toList_map, List.map_map]
  rfl

theorem isTaken_registeredIn (name : String) :
    (schema.registeredIn registered).isTaken name = schema.isTaken name := by
  rw [Bool.eq_iff_iff, ← not_iff_not, Bool.not_eq_true, Bool.not_eq_true, isTaken_eq_false_iff,
    isTaken_eq_false_iff, map_name_registeredIn]
  rfl

theorem addIndex_registeredIn (index : Index) :
    (schema.registeredIn registered).addIndex (index.registeredIn registered) =
      (schema.addIndex index).map (·.registeredIn registered) := by
  unfold addIndex
  rw [isTaken_registeredIn schema registered (index.registeredIn registered).name,
    show (index.registeredIn registered).name = index.name from rfl]
  split_ifs
  · rfl
  · simp [Except.map, registeredIn]

end Schema

namespace Snapshot

/-- The stored index with the predicate that is registered for it. -/
def StoredIndex.registeredIn (stored : StoredIndex) (registered : Schema) : StoredIndex :=
  { stored with index := stored.index.registeredIn registered }

/-! ## Reading indexes -/

variable (registered : Schema) (chunkSize chunkCount : Nat)

theorem maps_readIndex (schema : Schema) :
    Maps (readIndex registered (schema.registeredIn registered) chunkSize chunkCount)
      (readIndex .empty schema chunkSize chunkCount) (·.registeredIn registered) := by
  refine Maps.same_bind _ fun name => Maps.same_bind _ fun source => ?_
  have hcolumn : (schema.registeredIn registered).column? source = schema.column? source :=
    Schema.column?_congr rfl source
  rw [hcolumn]
  cases schema.column? source with
  | none => exact Maps.fail _ _
  | some found => exact Maps.same_bind _ fun bitmaps => Maps.pure rfl

theorem maps_readIndexes (n : Nat) (schema : Schema) :
    Maps (readIndexes registered chunkSize chunkCount n (schema.registeredIn registered))
      (readIndexes .empty chunkSize chunkCount n schema)
      (Prod.map (·.registeredIn registered) (List.map (·.registeredIn registered))) := by
  induction n generalizing schema with
  | zero => exact Maps.pure rfl
  | succ n ih =>
    refine (maps_readIndex registered chunkSize chunkCount schema).bind fun stored => ?_
    have hadd := schema.addIndex_registeredIn registered stored.index
    simp only [StoredIndex.registeredIn, hadd]
    cases schema.addIndex stored.index with
    | error e => exact Maps.fail _ _
    | ok schema₁ => exact (ih schema₁).bind fun result => Maps.pure rfl

/-- Where nothing is registered, no index has a predicate. -/
theorem yields_readIndexes_detached (n : Nat) {schema : Schema}
    (hschema : ∀ index ∈ schema.indexes, index.predicate = none) :
    Yields (readIndexes .empty chunkSize chunkCount n schema) fun result =>
      ∀ index ∈ result.1.indexes, index.predicate = none := by
  induction n generalizing schema with
  | zero => exact Yields.pure hschema
  | succ n ih =>
    have hindex : Yields (readIndex .empty schema chunkSize chunkCount) fun stored =>
        stored.index.predicate = none := by
      refine Yields.bind_any fun name => Yields.bind_any fun source => ?_
      cases schema.column? source with
      | none => exact Yields.fail _ _
      | some found =>
        refine Yields.bind_any fun bitmaps => Yields.pure ?_
        show registered? .empty name source = none
        simp [registered?, Schema.index?, Schema.indexSlot?, Schema.empty]
    refine hindex.bind fun stored hstored => ?_
    cases hadd : schema.addIndex stored.index with
    | error e => exact Yields.fail _ _
    | ok schema₁ =>
      obtain ⟨-, rfl⟩ := Schema.eq_of_addIndex hadd
      refine (ih fun index hmem => ?_).bind fun result hresult => Yields.pure hresult
      rcases Array.mem_push.mp hmem with hold | rfl
      · exact hschema index hold
      · exact hstored

/-! ## Reading tables -/

/-- Without predicates there is nothing to compare. -/
theorem revalidate_of_detached {table : Table}
    (h : ∀ index ∈ table.schema.indexes, index.predicate = none) : revalidate table = table := by
  have hchunk : ∀ places : List (Index × Nat), (∀ p ∈ places, p.1.predicate = none) →
      ∀ chunks : Array Chunk, places.foldl (fun chunks p =>
        chunks.map (revalidateChunk p.2 p.1 (table.dictionary p.1.sourceSlot)
          (table.indexTable p.1))) chunks = chunks := by
    intro places hplaces chunks
    induction places with
    | nil => rfl
    | cons p rest ih =>
      obtain ⟨index, slot⟩ := p
      rw [List.forall_mem_cons] at hplaces
      rw [List.foldl_cons]
      simp only [Array.map_id'' (revalidateChunk_of_detached hplaces.1 slot _ _)]
      exact ih hplaces.2
  unfold revalidate
  simp only
  rw [hchunk]
  intro p hp
  exact h p.1 (Array.mem_of_getElem? (Schema.mem_zipIdx_iff.mp hp))

theorem maps_read :
    Maps (read chunkSize registered) (read chunkSize .empty) fun table =>
      revalidate (table.registeredIn registered) := by
  refine Maps.same_bind _ fun front => Maps.same_bind _ fun _ => ?_
  refine Maps.same_bind _ fun found => Maps.same_bind _ fun _ => ?_
  refine Maps.same_bind _ fun size => Maps.same_bind _ fun _ => ?_
  refine Maps.same_bind _ fun chunkCount => Maps.same_bind _ fun _ => ?_
  refine Maps.same_bind _ fun columnCount => ?_
  refine (Maps.refl _).bind_of (yields_readColumns chunkSize chunkCount columnCount
    Schema.wellFormed_empty) fun result hcolumns => ?_
  obtain ⟨schema₁, columns⟩ := result
  obtain ⟨-, hnone, -⟩ := hcolumns
  have hschema₁ : schema₁.registeredIn registered = schema₁ := by
    cases schema₁
    cases hnone
    simp [Schema.registeredIn]
  refine Maps.same_bind _ fun indexCount => ?_
  have hindexes := maps_readIndexes registered chunkSize chunkCount indexCount schema₁
  rw [hschema₁] at hindexes
  refine hindexes.bind_of (yields_readIndexes_detached chunkSize chunkCount indexCount ?_)
    fun result hdetached => ?_
  · simp only at hnone
    rw [hnone]
    simp [Schema.empty]
  obtain ⟨schema, indexes⟩ := result
  refine Maps.same_bind _ fun watermark => Maps.same_bind _ fun live => ?_
  refine Maps.same_bind _ fun _ => Maps.same_bind _ fun fills => ?_
  refine Maps.same_bind _ fun _ => Maps.same_bind _ fun _ => ?_
  have hbare : revalidate ⟨schema, dictionariesOf columns,
      chunksOf chunkSize columns indexes fills, watermark, live⟩ = _ :=
    revalidate_of_detached hdetached
  apply Maps.pure
  show _ = revalidate ((revalidate ⟨schema, dictionariesOf columns,
    chunksOf chunkSize columns indexes fills, watermark, live⟩).registeredIn registered)
  rw [hbare]
  simp only [List.map_map]
  rfl

/-- The bytes are read as where nothing is registered, and then the registered predicates come in. -/
theorem decode_eq (bytes : Bytes) :
    decode chunkSize registered bytes =
      (decode chunkSize .empty bytes).map fun table =>
        revalidate (table.registeredIn registered) := by
  unfold decode
  rw [maps_read registered chunkSize bytes]
  cases read chunkSize .empty bytes <;> rfl

/-- Bytes that are accepted are so whatever is registered, and then hold the same indexes. -/
theorem exists_decode {chunkSize : Nat} {registered : Schema} {bytes : Bytes} {table : Table}
    (h : decode chunkSize registered bytes = .ok table) (registered' : Schema) :
    ∃ table', decode chunkSize registered' bytes = .ok table' ∧
      ∀ index ∈ table.schema.indexes, ∃ index' ∈ table'.schema.indexes,
        index'.name = index.name ∧ index'.source = index.source := by
  rw [decode_eq] at h
  cases hbare : decode chunkSize .empty bytes with
  | error cause =>
    rw [hbare] at h
    cases h
  | ok bare =>
    rw [hbare] at h
    obtain rfl : revalidate (bare.registeredIn registered) = table := Except.ok.inj h
    refine ⟨revalidate (bare.registeredIn registered'), by rw [decode_eq, hbare]; rfl,
      fun index hmem => ?_⟩
    obtain ⟨old, hold, rfl⟩ := Array.mem_map.mp hmem
    exact ⟨old.registeredIn registered', Array.mem_map.mpr ⟨old, hold, rfl⟩, rfl, rfl⟩

end Snapshot

end ColumnStore
