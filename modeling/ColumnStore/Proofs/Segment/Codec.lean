import ColumnStore.Proofs.Snapshot.Decode
import ColumnStore.Proofs.Value.Codec

/-!
# Stored parts read back

Bitmaps, dictionaries and segments are read back from their stored forms (`Bitmap.reads_encode`,
`Dictionary.reads_encode`, `Segment.reads_encode`). A segment comes back with room up to its last
present offset only, but with the same cells (`Segment.cell?_reread`).
-/

namespace ColumnStore

open Reader (Reads)

/-! ## Bitmaps -/

namespace Bitmap

theorem wordsOf_flatMap (words : List Word) :
    wordsOf (words.flatMap fun w => Bytes.ofNat 8 w.toNat) = words := by
  induction words with
  | nil => rfl
  | cons w rest ih =>
    have hword : UInt64.ofNat (Bytes.toNat (Bytes.ofNat 8 w.toNat)) = w := by
      have hlt : w.toNat < 256 ^ 8 := w.toNat_lt
      rw [Bytes.toNat_ofNat hlt, UInt64.ofNat_toNat]
    rw [List.flatMap_cons]
    show UInt64.ofNat (Bytes.toNat (Bytes.ofNat 8 w.toNat)) :: wordsOf (rest.flatMap _) = _
    rw [hword, ih]

theorem reads_encode {b : Bitmap} (h : b.words.size < 2 ^ 32) : Reads Bitmap.read b.encode b := by
  refine (Reads.nat (by omega) _).bind ?_
  have hlength : (b.words.toList.flatMap fun w => Bytes.ofNat 8 w.toNat).length =
      b.words.size * 8 := by
    rw [Bytes.length_flatMap_of_forall fun w _ => Bytes.length_ofNat 8 w.toNat,
      Array.length_toList]
  refine (Reads.take hlength _).bind_pure ?_
  rw [wordsOf_flatMap, Array.toArray_toList]
  exact Reads.pure b

end Bitmap

/-! ## Dictionaries -/

namespace Dictionary

theorem placesOf_flatMap {entries : List Entry} {limit : Nat} (hlimit : limit ≤ 2 ^ 32)
    (h : ∀ entry ∈ entries, entry.offset < limit ∧ entry.length < limit) :
    placesOf (entries.flatMap Entry.encode) =
      entries.map fun entry => (entry.offset, entry.length) := by
  induction entries with
  | nil => rfl
  | cons entry rest ih =>
    obtain ⟨hoffset, hlength⟩ := h entry List.mem_cons_self
    rw [List.flatMap_cons]
    show (Bytes.toNat (Bytes.ofNat 4 entry.offset), Bytes.toNat (Bytes.ofNat 4 entry.length)) ::
      placesOf (rest.flatMap Entry.encode) = _
    rw [Bytes.toNat_ofNat (by omega), Bytes.toNat_ofNat (by omega),
      ih fun e he => h e (List.mem_cons_of_mem _ he)]
    rfl

theorem Entry.length_encode (entry : Entry) : entry.encode.length = 8 := by
  rw [Entry.encode, List.length_append, Bytes.length_ofNat, Bytes.length_ofNat]

/-- A dictionary whose counts fit four bytes is read back. -/
theorem reads_encode {d : Dictionary} (h : d.WellFormed) (hentries : d.entries.size < 2 ^ 32)
    (hdata : d.data.size < 2 ^ 32) : Reads Dictionary.read d.encode d := by
  have hplaces : ∀ entry ∈ d.entries.toList,
      entry.offset < d.data.size + 1 ∧ entry.length < d.data.size + 1 := by
    intro entry hmem
    have := (entryAt_eq_ok_iff.mp (h entry (Array.mem_toList_iff.mp hmem))).1
    omega
  have hlength : (d.entries.toList.flatMap Entry.encode).length = d.entries.size * 8 := by
    rw [Bytes.length_flatMap_of_forall fun entry _ => entry.length_encode, Array.length_toList]
  rw [encode, List.append_assoc, List.append_assoc]
  refine Reads.requireLeft_bind ?_ _ ?_
  · simp only [List.length_append, Bytes.length_ofNat]
    omega
  refine (Reads.nat (by omega) _).bind ((Reads.nat (by omega) _).bind ?_)
  refine (Reads.take hlength _).bind ?_
  refine (Reads.take (Array.length_toList ..) _).bind_pure ?_
  rw [placesOf_flatMap (by omega) hplaces]
  have hread : Reads (d.entries.toList.mapM fun entry =>
      liftM (entryAt d.data (entry.offset, entry.length)))
      (d.entries.toList.flatMap fun _ => []) (d.entries.toList.map id) := by
    refine Reads.mapM fun entry hmem => ?_
    exact Reads.lift (h entry (Array.mem_toList_iff.mp hmem))
  have hnothing : (d.entries.toList.flatMap fun _ => ([] : Bytes)) = [] := by simp
  rw [hnothing, List.map_id] at hread
  simp only [List.mapM_map, Array.toArray_toList, Function.comp_def]
  refine hread.bind_pure ?_
  exact Reads.pure d

end Dictionary

/-! ## Segments -/

theorem Kind.ofCode?_code (kind : Kind) : Kind.ofCode? kind.code = some kind := by
  cases kind <;> rfl

/-- A cell that fits the stored form: ids and lengths take four bytes, and maps are in key order, as
    a value that is read has them. -/
def Cell.Encodable : Cell → Prop
  | .enum id => id < 2 ^ 32
  | .any v => v.Canonical ∧ v.encode.length < 2 ^ 32
  | _ => True

theorem Cell.reads_encode {cell : Cell} (h : cell.Encodable) :
    Reads (Cell.read cell.kind) cell.encode cell := by
  cases cell with
  | float64 x =>
    have hbits : x.bits.toNat < 256 ^ 8 := x.bits.toNat_lt
    refine (Reads.nat hbits _).bind_pure ?_
    rw [UInt64.ofNat_toNat]
    exact Reads.pure _
  | bool b =>
    cases b with
    | false => exact (Reads.nat (show 0 < 256 ^ 1 by omega) _).bind_pure (Reads.pure _)
    | true => exact (Reads.nat (show 1 < 256 ^ 1 by omega) _).bind_pure (Reads.pure _)
  | enum id =>
    have hid : id < 2 ^ 32 := h
    exact (Reads.nat (by omega) _).bind_pure (Reads.pure _)
  | any v =>
    obtain ⟨hcanonical, hlength⟩ : v.Canonical ∧ v.encode.length < 2 ^ 32 := h
    refine (Reads.nat (by omega) _).bind ((Reads.take rfl _).bind_pure ?_)
    rw [Value.decode?_encode hcanonical (by omega)]
    exact Reads.pure _

theorem Cell.minCellSize_le (cell : Cell) : Segment.minCellSize cell.kind ≤ cell.encode.length := by
  cases cell with
  | float64 x => exact Nat.le_of_eq (Bytes.length_ofNat 8 _).symm
  | bool b => exact le_rfl
  | enum id => exact Nat.le_of_eq (Bytes.length_ofNat 4 _).symm
  | any v =>
    show 4 ≤ (Bytes.ofNat 4 v.encode.length ++ v.encode).length
    rw [List.length_append, Bytes.length_ofNat]
    omega

namespace Segment

variable {kind : Kind} {capacity : Nat} {s : Segment}

/-- What a segment becomes when its stored form is read. -/
def reread (s : Segment) : Segment :=
  (Segment.withCapacity s.kind ((s.presence.toList.getLast?.map (· + 1)).getD 0)).putAll
    (s.presence.toList.zip (s.presence.toList.map fun offset => (s.cells.get? offset).getD default))

/-- The present offsets of a well-formed segment and their cells. -/
theorem WellFormed.get?_of_mem (hs : s.WellFormed kind capacity) {offset : Nat}
    (hmem : offset ∈ s.presence.toList) :
    ∃ cell, s.cells.get? offset = some cell ∧ s.cell? offset = some cell ∧ cell.kind = kind := by
  have hpresent : s.isPresent offset = true := Bitmap.mem_toList.mp hmem
  obtain ⟨cell, hcell⟩ :=
    Option.isSome_iff_exists.mp (Cells.get?_isSome hs.room (hs.presence.lt offset hpresent))
  refine ⟨cell, hcell, by rw [cell?_of_isPresent hpresent, hcell], ?_⟩
  exact (Cells.kind_of_get? hcell).trans hs.kind_eq

theorem written_zip_map (offsets : List Nat) (f : Nat → Cell) (offset : Nat) :
    Chunk.written offset (offsets.zip (offsets.map f)) =
      if offset ∈ offsets then some (f offset) else none := by
  induction offsets with
  | nil => rfl
  | cons first rest ih =>
    rw [List.map_cons, List.zip_cons_cons, Chunk.written, ih]
    by_cases hrest : offset ∈ rest
    · rw [if_pos hrest, if_pos (List.mem_cons_of_mem _ hrest), Option.some_or]
    · by_cases hfirst : first = offset
      · subst hfirst
        rw [if_neg hrest, if_pos rfl, if_pos List.mem_cons_self, Option.none_or]
      · have hnot : offset ∉ first :: rest := by
          rw [List.mem_cons, not_or]
          exact ⟨fun heq => hfirst heq.symm, hrest⟩
        rw [if_neg hrest, if_neg hfirst, if_neg hnot, Option.none_or]

/-- A segment that was stored and read has the same cells. -/
theorem WellFormed.reread (hs : s.WellFormed kind capacity) :
    s.reread.WellFormed kind s.reread.capacity ∧ s.reread.capacity ≤ capacity ∧
      ∀ offset, s.reread.cell? offset = s.cell? offset := by
  have hroom : ∀ entry ∈ s.presence.toList.zip
      (s.presence.toList.map fun offset => (s.cells.get? offset).getD default),
      entry.1 < (s.presence.toList.getLast?.map (· + 1)).getD 0 ∧ entry.2.kind = s.kind := by
    intro entry hentry
    obtain ⟨hoffset, hcell⟩ := List.of_mem_zip hentry
    refine ⟨lt_used s.presence.toList_pairwise hoffset, ?_⟩
    obtain ⟨offset, hmem, heq⟩ := List.mem_map.mp hcell
    obtain ⟨cell, hget, -, hkind⟩ := hs.get?_of_mem hmem
    rw [← heq, hget, Option.getD_some, hkind, hs.kind_eq]
  obtain ⟨hwf, hview⟩ := (wellFormed_withCapacity s.kind _).putAll hroom
  have hused : (s.presence.toList.getLast?.map (· + 1)).getD 0 ≤ capacity :=
    used_le fun offset hmem => hs.presence.lt offset (Bitmap.mem_toList.mp hmem)
  have hcapacity : s.reread.capacity = (s.presence.toList.getLast?.map (· + 1)).getD 0 :=
    hwf.capacity_eq
  refine ⟨?_, hcapacity ▸ hused, fun offset => ?_⟩
  · rw [hcapacity, ← hs.kind_eq]
    exact hwf
  · rw [Segment.reread, hview, written_zip_map, cell?_withCapacity, Option.or_none]
    split_ifs with hmem
    · obtain ⟨cell, hget, hcell, -⟩ := hs.get?_of_mem hmem
      rw [hget, Option.getD_some, hcell]
    · have habsent : s.isPresent offset = false := by
        rw [← Bool.not_eq_true]
        exact fun hpresent => hmem (Bitmap.mem_toList.mpr hpresent)
      rw [cell?_of_not_isPresent habsent]

/-- The stored form of the cell at an offset. -/
def encodeAt (s : Segment) (offset : Nat) : Bytes :=
  match s.cells.get? offset with
  | some cell => cell.encode
  | none => []

/-- A segment whose capacity fits four bytes is read back with the same cells. -/
theorem WellFormed.reads_encode (hs : s.WellFormed kind capacity) {chunkSize : Nat}
    (hcapacity : capacity ≤ chunkSize) (hsize : capacity < 2 ^ 32)
    (hcells : ∀ offset cell, s.cell? offset = some cell → cell.Encodable) :
    Reads (Segment.read kind chunkSize) s.encode s.reread := by
  have hkind := hs.kind_eq
  have hcap := hs.capacity_eq
  have hwords : s.presence.words.size < 2 ^ 32 := by
    rw [hs.presence.size, Bitmap.wordCount]
    omega
  have hoffsets : (s.presence.toList.all fun offset => offset < s.capacity) = true := by
    rw [List.all_eq_true]
    intro offset hmem
    rw [hcap]
    exact decide_eq_true (hs.presence.lt offset (Bitmap.mem_toList.mp hmem))
  have hread : ∀ offset ∈ s.presence.toList,
      Reads (Cell.read kind) (s.encodeAt offset) ((s.cells.get? offset).getD default) := by
    intro offset hmem
    obtain ⟨cell, hget, hcell, hcellKind⟩ := hs.get?_of_mem hmem
    rw [encodeAt, hget, ← hcellKind]
    exact Cell.reads_encode (hcells offset cell hcell)
  have hlength : s.presence.toList.length * minCellSize kind ≤
      (s.presence.toList.flatMap s.encodeAt).length := by
    refine Bytes.le_length_flatMap fun offset hmem => ?_
    obtain ⟨cell, hget, -, hcellKind⟩ := hs.get?_of_mem hmem
    rw [encodeAt, hget, ← hcellKind]
    exact cell.minCellSize_le
  have hencode : s.encode = Bytes.ofNat 1 s.kind.code ++ Bytes.ofNat 4 s.capacity
      ++ s.presence.encode ++ s.presence.toList.flatMap s.encodeAt := rfl
  rw [hencode, List.append_assoc, List.append_assoc, hkind]
  refine (Reads.nat (by cases kind <;> decide) _).bind ?_
  simp only [Kind.ofCode?_code]
  refine Reads.require_bind (by simp) _ ?_
  refine (Reads.nat (by omega) _).bind ?_
  refine Reads.require_bind (by simpa using hcap.trans_le hcapacity) _ ?_
  refine (Bitmap.reads_encode hwords).bind ?_
  refine Reads.require_bind hoffsets _ (Reads.requireLeft_bind hlength _ ?_)
  refine (Reads.mapM hread).bind_pure ?_
  rw [Segment.reread, hkind]
  exact Reads.pure _

end Segment

end ColumnStore
