import ColumnStore.Proofs.Session.Snapshot
import ColumnStore.Proofs.Snapshot.Prefix
import ColumnStore.Proofs.Snapshot.Scan

/-!
# Loads of any bytes

Whatever bytes are loaded, a collection takes their table or refuses them as corrupt, and then
nothing of it has changed (`Session.load_cases`). On the way to the answer no byte is looked at that
is not there and no size is computed that does not fit: the scan of the same bytes comes to the same
end.

Of two strings of bytes of which one goes on where the other ends, at most one is taken
(`Collection.load_prefix_free`).
-/

namespace ColumnStore

/-- Loading any bytes into a collection with a usable configuration. Either they are taken, and the
    collection has a new table in a new generation; or they are refused as corrupt, and the session
    is the one it was, whatever is done with it afterwards. The scan of the bytes, as long as memory
    can hold them, ends in the same way, so it never stops for an access out of bounds, a size that
    does not fit or a slot that is not the next. -/
theorem Session.load_cases (s : Session) (h : s.collection.config.fault? = none) (bytes : Bytes) :
    (∃ table, s.step (.load ⟨bytes, none⟩) =
        (.ok (), { s with collection := s.collection.replaceTable table }) ∧
      table.WellFormed s.collection.config ∧
      (bytes.length < 2 ^ 63 →
        Snapshot.scan s.collection.chunkSize s.collection.table.schema bytes = .ok table)) ∨
    ∃ cause, s.step (.load ⟨bytes, none⟩) = (.error (.corruptSnapshot cause), s) ∧
      (∀ ops, s.run (.load ⟨bytes, none⟩ :: ops) = s.run ops) ∧
      (bytes.length < 2 ^ 63 →
        Snapshot.scan s.collection.chunkSize s.collection.table.schema bytes =
          .error (.corrupt cause)) := by
  have hscan : bytes.length < 2 ^ 63 →
      Snapshot.scan s.collection.chunkSize s.collection.table.schema bytes =
        (Snapshot.decode s.collection.chunkSize s.collection.table.schema bytes).mapError
          .corrupt := Snapshot.scan_eq h _
  have hstep : s.step (.load ⟨bytes, none⟩) = ((s.collection.loadBytes bytes).1,
      { s with collection := (s.collection.loadBytes bytes).2 }) := rfl
  rw [Collection.loadBytes] at hstep
  cases hdecode : Snapshot.decode s.collection.chunkSize s.collection.table.schema bytes with
  | ok table =>
    rw [hdecode] at hscan hstep
    exact .inl ⟨table, hstep, Snapshot.wellFormed_of_decode h hdecode, hscan⟩
  | error cause =>
    rw [hdecode] at hscan hstep
    refine .inr ⟨cause, hstep, fun ops => ?_, hscan⟩
    rw [run, List.foldl_cons, hstep]
    rfl

/-- The front of a snapshot that declares more chunks than there are bytes. -/
def Snapshot.boastful : Bytes :=
  Snapshot.magic ++ Bytes.ofNat 2 Snapshot.version ++ Bytes.ofNat 4 16384 ++
    Bytes.ofNat 4 (2 ^ 32 - 1)

/-- The boast is refused for what it is, and nothing comes of it. -/
theorem load_cases_boastful :
    (Session.start (.new 2)).step (.load ⟨Snapshot.boastful, none⟩) =
        (.error (.corruptSnapshot (.chunkCount (2 ^ 32 - 1))), Session.start (.new 2)) ∧
      Snapshot.scan 16384 .empty Snapshot.boastful =
        .error (.corrupt (.chunkCount (2 ^ 32 - 1))) := by
  have hanswer : ((Session.start (.new 2)).step (.load ⟨Snapshot.boastful, none⟩)).1 =
      .error (.corruptSnapshot (.chunkCount (2 ^ 32 - 1))) := by
    cbv
  have husable : (Session.start (.new 2)).collection.config.fault? = none := by decide +kernel
  rcases (Session.start (.new 2)).load_cases husable Snapshot.boastful with
    ⟨table, hstep, -⟩ | ⟨cause, hstep, -, hscan⟩
  · rw [hstep] at hanswer
    cases hanswer
  · rw [hstep] at hanswer
    obtain rfl := Error.corruptSnapshot.inj (Except.error.inj hanswer)
    exact ⟨hstep, hscan (by decide)⟩

/-! ## Bytes cut short and bytes continued -/

namespace Collection

variable {c : Collection} {bytes : Bytes}

theorem load_of_decode {table : Table}
    (h : Snapshot.decode c.chunkSize c.table.schema bytes = .ok table) :
    c.load ⟨bytes, none⟩ = (.ok (), c.replaceTable table) := by
  show c.loadBytes bytes = _
  rw [loadBytes, h]

theorem load_of_corrupt {cause : Corruption}
    (h : Snapshot.decode c.chunkSize c.table.schema bytes = .error cause) :
    c.load ⟨bytes, none⟩ = (.error (.corruptSnapshot cause), c) := by
  show c.loadBytes bytes = _
  rw [loadBytes, h]

theorem decode_of_load (h : (c.load ⟨bytes, none⟩).1 = .ok ()) :
    ∃ table, Snapshot.decode c.chunkSize c.table.schema bytes = .ok table := by
  cases hdecode : Snapshot.decode c.chunkSize c.table.schema bytes with
  | ok table => exact ⟨table, rfl⟩
  | error cause =>
    rw [load_of_corrupt hdecode] at h
    cases h

/-- What a collection takes, no collection with chunks of the same size takes when it is continued,
    and none when it is cut short; either way nothing changes. A continuation is refused for what
    was added. The snapshot of any session that fits the stored form is among the bytes taken. -/
theorem load_prefix_free (c c' : Collection) (hsize : c'.chunkSize = c.chunkSize) :
    (∀ bytes tail : Bytes, (c.load ⟨bytes, none⟩).1 = .ok () → tail ≠ [] →
      c'.load ⟨bytes ++ tail, none⟩ = (.error (.corruptSnapshot (.trailing tail.length)), c')) ∧
    (∀ front tail : Bytes, (c.load ⟨front ++ tail, none⟩).1 = .ok () → tail ≠ [] →
      ∃ cause, c'.load ⟨front, none⟩ = (.error (.corruptSnapshot cause), c')) ∧
    ∀ s : Session, Reachable s → s.collection.chunkSize = c.chunkSize →
      Snapshot.Fits s.collection.table → (c.load ⟨s.collection.snapshot, none⟩).1 = .ok () := by
  refine ⟨fun bytes tail h htail => ?_, fun front tail h htail => ?_, fun s hs hchunk hfits => ?_⟩
  · obtain ⟨table, hdecode⟩ := decode_of_load h
    apply load_of_corrupt
    rw [hsize]
    exact Snapshot.decode_append hdecode _ htail
  · obtain ⟨table, hdecode⟩ := decode_of_load h
    obtain ⟨cause, hfront⟩ := Snapshot.decode_of_append hdecode c'.table.schema htail
    rw [← hsize] at hfront
    exact ⟨cause, load_of_corrupt hfront⟩
  · have hdecode := Snapshot.decode_encode hs.wellFormed.table hfits c.table.schema
    have htaken : ∃ table,
        Snapshot.decode c.chunkSize c.table.schema s.collection.snapshot = .ok table := by
      rw [← hchunk]
      exact ⟨_, hdecode⟩
    rw [load_of_decode htaken.choose_spec]

/-- The snapshot of the flags with a byte too many, and with the last byte missing. -/
theorem load_prefix_free_flags :
    Session.flags.collection.load ⟨Session.flags.collection.snapshot ++ [0], none⟩ =
        (.error (.corruptSnapshot (.trailing 1)), Session.flags.collection) ∧
      ∃ cause, Session.flags.collection.load ⟨Session.flags.collection.snapshot.dropLast, none⟩ =
        (.error (.corruptSnapshot cause), Session.flags.collection) := by
  obtain ⟨hcontinued, hcut, htaken⟩ :=
    load_prefix_free Session.flags.collection Session.flags.collection rfl
  have hflags := htaken Session.flags reachable_flags rfl fits_flags
  refine ⟨hcontinued _ [0] hflags (List.cons_ne_nil 0 []), ?_⟩
  have hne : Session.flags.collection.snapshot ≠ [] := by
    simp [Collection.snapshot, Snapshot.encode, Snapshot.magic]
  apply hcut _ [Session.flags.collection.snapshot.getLast hne] _ (List.cons_ne_nil _ [])
  rw [List.dropLast_append_getLast]
  exact hflags

end Collection

end ColumnStore
