import ColumnStore.Proofs.Session.Isolation
import ColumnStore.Proofs.Snapshot.Attach
import ColumnStore.Proofs.Snapshot.Normal

/-!
# Loads that come to the same

* `Collection.snapshot_load_snapshot`: whatever bytes were loaded, the snapshot taken then is a
  fixed point, loading it and taking the snapshot again gives the same bytes;
* `Reachable.load_createIndex`: it makes no difference whether a predicate is registered when an
  index is loaded or attached to the index afterwards.
-/

namespace ColumnStore

open Snapshot (IsRegistered)

/-- A collection that was loaded has the table of the bytes. -/
theorem Collection.eq_of_load {c loaded : Collection} {bytes : Bytes}
    (h : c.load ⟨bytes, none⟩ = (.ok (), loaded)) :
    ∃ table, Snapshot.decode c.chunkSize c.table.schema bytes = .ok table ∧
      c.replaceTable table = loaded := by
  obtain ⟨table, hdecode⟩ := decode_of_load (congrArg Prod.fst h)
  rw [load_of_decode hdecode] at h
  exact ⟨table, hdecode, congrArg Prod.snd h⟩

/-! ## Taking the snapshot of what was loaded -/

/-- After any load the snapshot of the collection is in normal form: the collection accepts it, and
    then has the same snapshot, to the byte. -/
theorem Collection.snapshot_load_snapshot {c loaded : Collection} (husable : c.config.fault? = none)
    {bytes : Bytes} (hload : c.load ⟨bytes, none⟩ = (.ok (), loaded)) :
    ∃ again, loaded.load ⟨loaded.snapshot, none⟩ = (.ok (), again) ∧
      again.snapshot = loaded.snapshot := by
  obtain ⟨table, hdecode, rfl⟩ := eq_of_load hload
  have h := Snapshot.wellFormed_of_decode husable hdecode
  have ha := Snapshot.accepted_of_decode husable hdecode
  exact ⟨_, load_of_decode (Snapshot.decode_encode h ha.fits _), Snapshot.encode_restored h ha⟩

/-- The snapshot of one row that is not as a collection would write it: the columns `b` and `a` come
    in this order, the truth value of `b` is written as 7, the segment of `a` has room for three
    rows and no words, and the bitmap of live rows has no second word. -/
def Snapshot.uneven : Bytes :=
  [0x4b, 0x4c, 0x53, 0x4e, 1, 0, 128, 0, 0, 0, 1, 0, 0, 0, 2, 0, 0, 0,
    1, 0, 0, 0, 0x62, 1, 1, 128, 0, 0, 0, 2, 0, 0, 0,
    1, 0, 0, 0, 0, 0, 0, 0, 0, 0, 0, 0, 0, 0, 0, 0, 7,
    1, 0, 0, 0, 0x61, 1, 1, 3, 0, 0, 0, 0, 0, 0, 0,
    0, 0, 0, 0,
    1, 0, 0, 0, 0, 0, 0, 0, 1, 0, 0, 0, 0, 0, 0, 0, 1, 0, 0, 0, 1, 0, 0, 0, 0, 0, 0, 0]

/-- It is accepted, and after one round its snapshot stays. -/
theorem snapshot_load_snapshot_uneven :
    ∃ loaded again, (Collection.build ⟨0, 128, none⟩).load ⟨Snapshot.uneven, none⟩ =
        (.ok (), loaded) ∧
      loaded.load ⟨loaded.snapshot, none⟩ = (.ok (), again) ∧
      again.snapshot = loaded.snapshot ∧ loaded.snapshot ≠ Snapshot.uneven := by
  have hanswer : ((Collection.build ⟨0, 128, none⟩).load ⟨Snapshot.uneven, none⟩).1 = .ok () := by
    cbv
  have hload : (Collection.build ⟨0, 128, none⟩).load ⟨Snapshot.uneven, none⟩ =
      (.ok (), ((Collection.build ⟨0, 128, none⟩).load ⟨Snapshot.uneven, none⟩).2) :=
    Prod.ext hanswer rfl
  obtain ⟨again, hagain, hsame⟩ := Collection.snapshot_load_snapshot (by decide +kernel) hload
  exact ⟨_, again, hload, hagain, hsame, by decide +kernel⟩

/-! ## Registering a predicate before and after -/

namespace Session

/-- Sessions that begin with equal contents cannot be told apart, whatever was before. -/
theorem indistinguishable_start {c c' : Collection} (h : c.table.WellFormed c.config)
    (hconfig : c'.config = c.config) (htable : c'.table = c.table) :
    (start c).Indistinguishable 0 (start c') := by
  have hparts : ∀ c : Collection, (start c).Parts c.generation 0 := fun c =>
    ⟨le_rfl, Nat.zero_le _, fun id t ht => by simp [start] at ht⟩
  have hwf : ∀ {c : Collection}, c.table.WellFormed c.config → (start c).WellFormed := fun h =>
    ⟨h, by simp [start], by simp [start]⟩
  have hsince : ∀ c : Collection,
      (start c).since c.generation 0 = ⟨⟨c.config, c.table, #[]⟩, #[]⟩ := by
    intro c
    show Session.mk (Collection.mk c.config c.table (c.retired.extract c.retired.size
      c.retired.size)) _ = _
    rw [Array.extract_eq_empty_of_le (Nat.min_le_left ..)]
    rfl
  refine (hparts c).indistinguishable (hwf h) (hparts c') (hwf ?_) ?_
  · rw [hconfig, htable]
    exact h
  · rw [hsince, hsince, hconfig, htable]

end Session

/-- Two collections of one configuration have the same predicates registered, but for one, for an
    index of some name and source, which the second does not have. They load the same bytes, which
    contain that index and which some collection with chunks of this size accepts. Then both accept
    them, the second lets the predicate be attached to the index, and they are the same from then
    on: in their snapshots, and in all that any operations answer and any transactions read. -/
theorem Reachable.load_createIndex {s s' : Session} (hs : Reachable s) (hs' : Reachable s')
    (hconfig : s'.collection.config = s.collection.config) {name source : String}
    {predicate : Value → Bool}
    (hregistered : IsRegistered s.collection.table.schema name source predicate)
    (hfree : ∀ p, ¬IsRegistered s'.collection.table.schema name source p)
    (hothers : ∀ name' source' p, name' ≠ name →
      (IsRegistered s'.collection.table.schema name' source' p ↔
        IsRegistered s.collection.table.schema name' source' p))
    {c loaded : Collection} {bytes : Bytes} (hsize : c.chunkSize = s.collection.chunkSize)
    (hload : c.load ⟨bytes, none⟩ = (.ok (), loaded))
    (hindex : ∃ index ∈ loaded.table.schema.indexes, index.name = name ∧ index.source = source) :
    ∃ before loaded' after, s.collection.load ⟨bytes, none⟩ = (.ok (), before) ∧
      s'.collection.load ⟨bytes, none⟩ = (.ok (), loaded') ∧
      loaded'.createIndex name source predicate = (.ok (), after) ∧
      after.snapshot = before.snapshot ∧
      (Session.start before).Indistinguishable 0 (Session.start after) := by
  have h := hs.wellFormed.table
  have h' := hs'.wellFormed.table
  obtain ⟨table, hdecode, rfl⟩ := Collection.eq_of_load hload
  rw [hsize] at hdecode
  obtain ⟨before, hbefore, hindexes⟩ :=
    Snapshot.exists_decode hdecode s.collection.table.schema
  obtain ⟨loaded', hloaded', -⟩ := Snapshot.exists_decode hdecode s'.collection.table.schema
  -- the index is among those that the first collection has then
  obtain ⟨index, hmem, hname, hsource⟩ : ∃ index ∈ before.schema.indexes,
      index.name = name ∧ index.source = source := by
    obtain ⟨index, hmem, rfl, rfl⟩ := hindex
    exact hindexes index hmem
  subst hname hsource
  have hattach := Snapshot.decode_attach h.usable hbefore hloaded' hmem
    ((Snapshot.registered?_eq_some_iff h.schema).mpr hregistered)
    ((Snapshot.registered?_eq_none_iff h'.schema).mpr hfree) fun name' source' hne =>
      Option.ext fun p => by
        rw [Snapshot.registered?_eq_some_iff h'.schema, Snapshot.registered?_eq_some_iff h.schema]
        exact hothers name' source' p hne
  have hchunkSize : s'.collection.chunkSize = s.collection.chunkSize :=
    congrArg Config.chunkSize hconfig
  refine ⟨_, _, { s'.collection.replaceTable loaded' with table := before },
    Collection.load_of_decode hbefore, Collection.load_of_decode (hchunkSize ▸ hloaded'), ?_, ?_,
    Session.indistinguishable_start (Snapshot.wellFormed_of_decode h.usable hbefore) hconfig rfl⟩
  · rw [Collection.createIndex, Collection.change,
      show (s'.collection.replaceTable loaded').table = loaded' from rfl, hattach]
  · exact congrArg (fun size => Snapshot.encode size before) hchunkSize

/-- The flags, loaded where the index of the set ones is registered, and loaded into an empty
    collection that is given the index then. -/
theorem load_createIndex_flags :
    ∃ before loaded after,
      Session.flags.collection.load ⟨Session.flags.collection.snapshot, none⟩ = (.ok (), before) ∧
      (Collection.new 2).load ⟨Session.flags.collection.snapshot, none⟩ = (.ok (), loaded) ∧
      loaded.createIndex "set" "flag" Value.isTrue = (.ok (), after) ∧
      after.snapshot = before.snapshot ∧
      (Session.start before).Indistinguishable 0 (Session.start after) := by
  have hregistered : IsRegistered Session.flags.collection.table.schema "set" "flag"
      Value.isTrue := by
    refine ⟨⟨"set", "flag", 0, some Value.isTrue⟩, ?_, rfl, rfl, rfl⟩
    rw [indexes_flags]
    exact Array.mem_singleton.mpr rfl
  have hempty : ∀ name source p, ¬IsRegistered (Collection.new 2).table.schema name source p := by
    rintro name source p ⟨index, hmem, -⟩
    simp [Collection.new, Collection.build, Table.empty, Schema.empty] at hmem
  have hdecode := Snapshot.decode_encode reachable_flags.wellFormed.table fits_flags
    Session.flags.collection.table.schema
  refine reachable_flags.load_createIndex (Reachable.new 2) (by decide +kernel) hregistered
    (hempty _ _) (fun name' source' p hne => ⟨fun h => absurd h (hempty _ _ _), fun h => ?_⟩) rfl
    (Collection.load_of_decode hdecode) ?_
  · obtain ⟨index, hmem, hname, -⟩ := h
    rw [indexes_flags, Array.mem_singleton] at hmem
    rw [hmem] at hname
    exact absurd hname.symm hne
  · have hrestores : Table.Restores _ Session.flags.collection.config
        Session.flags.collection.config _ _ :=
      Snapshot.restores_restored reachable_flags.wellFormed.table fits_flags rfl
        Session.flags.collection.table.schema
    obtain ⟨slot, index, hslot, hname, hsource, -⟩ :=
      hrestores.index 0 ⟨"set", "flag", 0, some Value.isTrue⟩ (by rw [indexes_flags]; rfl)
    exact ⟨index, Array.mem_of_getElem? hslot, hname, hsource⟩

end ColumnStore
