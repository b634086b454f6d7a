import ColumnStore.Proofs.Scanner
import ColumnStore.Proofs.Snapshot.Decode

/-!
# Scanning stored parts

Scanners of bitmaps, dictionaries and segments, with every slice, every place and every size they
touch, and that each follows its reader (`Bitmap.follows_scan`, `Dictionary.follows_scan`,
`Segment.follows_scan`).

A bitmap and a dictionary are parsed from all that is left of the buffer, and the scanner then goes
on by the size that the result has when it is stored. A segment has room up to its last present
offset, so that its cells can be put where they belong.
-/

namespace ColumnStore

open Reader (Yields)
open Scanner (Follows Parses)

/-! ## Bitmaps -/

/-- Eight bytes off the front. -/
theorem Bytes.exists_of_le_length {bytes : Bytes} (h : 8 ≤ bytes.length) :
    ∃ b0 b1 b2 b3 b4 b5 b6 b7 rest,
      bytes = b0 :: b1 :: b2 :: b3 :: b4 :: b5 :: b6 :: b7 :: rest := by
  match bytes, h with
  | b0 :: b1 :: b2 :: b3 :: b4 :: b5 :: b6 :: b7 :: rest, _ =>
    exact ⟨b0, b1, b2, b3, b4, b5, b6, b7, rest, rfl⟩

/-- Induction on bytes that are taken eight at a time. -/
@[elab_as_elim]
theorem Bytes.eights_induction {motive : Nat → Bytes → Prop} (nil : motive 0 [])
    (cons : ∀ n b0 b1 b2 b3 b4 b5 b6 b7 rest, motive n rest →
      motive (n + 1) (b0 :: b1 :: b2 :: b3 :: b4 :: b5 :: b6 :: b7 :: rest))
    {n : Nat} {bytes : Bytes} (h : bytes.length = n * 8) : motive n bytes := by
  induction n generalizing bytes with
  | zero =>
    rw [Nat.zero_mul, List.length_eq_zero_iff] at h
    rw [h]
    exact nil
  | succ n ih =>
    obtain ⟨b0, b1, b2, b3, b4, b5, b6, b7, rest, rfl⟩ :=
      Bytes.exists_of_le_length (show 8 ≤ bytes.length by omega)
    simp only [List.length_cons] at h
    exact cons n b0 b1 b2 b3 b4 b5 b6 b7 rest (ih (by omega))

namespace Bitmap

/-- Parses the bitmap at the front of some bytes (`from_bytes`). -/
def parse (bytes : Bytes) : Checked Bitmap := do
  Checked.require (4 ≤ bytes.length) (.truncated "Bitmap header")
  let count ← Checked.word32 bytes 0
  let body ← Checked.slice bytes 4 bytes.length
  let size ← Checked.size (count * 8)
  Checked.require (size ≤ body.length) (.truncated "Bitmap data")
  let data ← Checked.slice body 0 size
  pure ⟨(wordsOf data).toArray⟩

/-- Scans a bitmap. -/
def scan : Scanner Bitmap := Scanner.within parse encodedSize

theorem length_wordsOf {bytes : Bytes} {n : Nat} (h : bytes.length = n * 8) :
    (wordsOf bytes).length = n := by
  refine Bytes.eights_induction (motive := fun n bytes => (wordsOf bytes).length = n) rfl ?_ h
  intro n b0 b1 b2 b3 b4 b5 b6 b7 rest ih
  exact congrArg (· + 1) ih

theorem parses_read (bytes : Bytes) : Parses encodedSize bytes (parse bytes) (read bytes) := by
  rw [read, parse]
  rcases Nat.lt_or_ge bytes.length 4 with hshort | hheader
  · rw [Reader.nat_bind_of_lt hshort, Checked.require_of_not (by simpa using hshort)]
    exact .refused _
  obtain ⟨hword, hlt⟩ := Checked.word32_of_le (show 0 + 4 ≤ bytes.length from hheader)
  rw [List.drop_zero] at hword hlt
  have hbody : (bytes.drop 4).length = bytes.length - 4 := List.length_drop
  rw [Reader.nat_bind_apply hheader, Checked.require_of (decide_eq_true hheader), Checked.ok_bind,
    hword, Checked.ok_bind, Checked.slice_rest hheader, Checked.ok_bind,
    Checked.size_of_lt (by omega), Checked.ok_bind]
  generalize Bytes.toNat (bytes.take 4) = count
  rcases Nat.lt_or_ge (bytes.drop 4).length (count * 8) with hshort | hdata
  · rw [Reader.take_bind_of_lt hshort, Checked.require_of_not (by simpa using hshort)]
    exact .refused _
  have hfront : ((bytes.drop 4).take (count * 8)).length = count * 8 := by
    rw [List.length_take, Nat.min_eq_left hdata]
  have hsize : encodedSize ⟨(wordsOf ((bytes.drop 4).take (count * 8))).toArray⟩ =
      4 + count * 8 := by
    rw [encodedSize, List.size_toArray, length_wordsOf hfront]
  rw [Reader.take_bind_apply hdata, Checked.require_of (decide_eq_true hdata), Checked.ok_bind,
    Checked.slice_of_le (Nat.zero_le _) hdata, Checked.ok_bind, List.drop_zero, Nat.sub_zero,
    List.drop_drop, ← hsize]
  exact .ok _ (by omega)

theorem follows_scan : Follows scan read := Scanner.follows_within fun bytes _ => parses_read bytes

/-- A bitmap that is read has fewer words than four bytes can count. -/
theorem yields_read : Yields read fun b => b.words.size < 2 ^ 32 := by
  refine (Reader.yields_nat 4 _).bind fun count hcount => ?_
  refine (Reader.yields_take (count * 8) _).bind fun body hbody => Yields.pure ?_
  rw [List.size_toArray, length_wordsOf hbody]
  exact hcount

end Bitmap

/-! ## Dictionaries -/

namespace Dictionary

/-- The places that the `n` times eight bytes from `pos` on stand for, and the position after
    them. -/
def placesFrom (bytes : Bytes) : (n pos : Nat) → Checked (List (Nat × Nat) × Nat)
  | 0, pos => pure ([], pos)
  | n + 1, pos => do
    let offset ← Checked.word32 bytes pos
    let second ← Checked.size (pos + 4)
    let length ← Checked.word32 bytes second
    let next ← Checked.size (pos + 8)
    let (rest, stop) ← placesFrom bytes n next
    pure ((offset, length) :: rest, stop)

/-- The entry whose text lies at a place of the run of bytes. -/
def entryIn (data : Bytes) (place : Nat × Nat) : Checked Entry := do
  let (offset, length) := place
  let stop ← Checked.size (offset + length)
  Checked.require (stop ≤ data.length) .dictionaryEntry
  let text ← Checked.slice data offset stop
  match text.toString? with
  | some text => pure ⟨offset, length, text⟩
  | none => Checked.fail (.invalidText "String table")

/-- The places of the texts and the run of bytes, at the front of some bytes. -/
def parseParts (bytes : Bytes) : Checked (List (Nat × Nat) × Bytes) := do
  Checked.require (8 ≤ bytes.length) .dictionaryHeader
  let count ← Checked.word32 bytes 0
  let dataSize ← Checked.word32 bytes 4
  let entriesSize ← Checked.size (count * 8)
  let entriesStop ← Checked.size (8 + entriesSize)
  Checked.require (entriesStop ≤ bytes.length) (.truncated "String table entries")
  let dataStop ← Checked.size (entriesStop + dataSize)
  Checked.require (dataStop ≤ bytes.length) (.truncated "String table data")
  let (places, pos) ← placesFrom bytes count 8
  let stop ← Checked.size (pos + dataSize)
  let data ← Checked.slice bytes pos stop
  pure (places, data)

/-- Parses the dictionary at the front of some bytes (`from_bytes`). -/
def parse (bytes : Bytes) : Checked Dictionary := do
  let (places, data) ← parseParts bytes
  let entries ← places.mapM (entryIn data)
  pure ⟨data.toArray, entries.toArray⟩

/-- Scans a dictionary. -/
def scan : Scanner Dictionary := Scanner.within parse encodedSize

theorem placesFrom_of_le {bytes : Bytes} {n pos : Nat} (h : pos + n * 8 ≤ bytes.length)
    (hsize : pos + n * 8 < 2 ^ 64) :
    placesFrom bytes n pos =
      .ok (placesOf ((bytes.drop pos).take (n * 8)), pos + n * 8) := by
  induction n generalizing pos with
  | zero => rfl
  | succ n ih =>
    have hdrop : (bytes.drop pos).length = bytes.length - pos := List.length_drop
    obtain ⟨b0, b1, b2, b3, b4, b5, b6, b7, rest, hbytes8⟩ :=
      Bytes.exists_of_le_length (show 8 ≤ (bytes.drop pos).length by omega)
    have hsecond : bytes.drop (pos + 4) = b4 :: b5 :: b6 :: b7 :: rest := by
      rw [← List.drop_drop, hbytes8]
      rfl
    have hnext : bytes.drop (pos + 8) = rest := by
      rw [← List.drop_drop, hbytes8]
      rfl
    have hrest := ih (show pos + 8 + n * 8 ≤ bytes.length by omega) (by omega)
    rw [hnext, Nat.add_assoc, Nat.add_comm 8] at hrest
    rw [Nat.succ_mul, placesFrom, (Checked.word32_of_le (show pos + 4 ≤ bytes.length by omega)).1,
      Checked.ok_bind, Checked.size_of_lt (by omega), Checked.ok_bind,
      (Checked.word32_of_le (show pos + 4 + 4 ≤ bytes.length by omega)).1, Checked.ok_bind,
      Checked.size_of_lt (by omega), Checked.ok_bind, hrest, Checked.ok_bind, hbytes8, hsecond]
    rfl

theorem length_placesOf {bytes : Bytes} {n : Nat} (h : bytes.length = n * 8) :
    (placesOf bytes).length = n ∧
      ∀ place ∈ placesOf bytes, place.1 < 2 ^ 32 ∧ place.2 < 2 ^ 32 := by
  refine Bytes.eights_induction (motive := fun n bytes => (placesOf bytes).length = n ∧
    ∀ place ∈ placesOf bytes, place.1 < 2 ^ 32 ∧ place.2 < 2 ^ 32) ?_ ?_ h
  · exact ⟨rfl, fun _ hmem => by cases hmem⟩
  · rintro n o0 o1 o2 o3 l0 l1 l2 l3 rest ⟨hlength, hplaces⟩
    refine ⟨congrArg (· + 1) hlength, fun place hmem => ?_⟩
    rcases List.mem_cons.mp hmem with rfl | hrest
    · exact ⟨Bytes.toNat_lt_of_length rfl, Bytes.toNat_lt_of_length rfl⟩
    · exact hplaces place hrest

theorem entryIn_eq (data : Bytes) {place : Nat × Nat} (h : place.1 < 2 ^ 32 ∧ place.2 < 2 ^ 32) :
    entryIn data place = (entryAt data.toArray place).mapError .corrupt := by
  obtain ⟨offset, length⟩ := place
  obtain ⟨hoffset, hlength⟩ := h
  simp only at hoffset hlength
  rw [entryIn, entryAt, Checked.size_of_lt (by omega), Checked.ok_bind, List.size_toArray]
  by_cases hle : offset + length ≤ data.length
  · rw [Checked.require_of (decide_eq_true hle), Checked.ok_bind,
      Checked.slice_of_le (by omega) hle, Checked.ok_bind, if_neg (by omega), Bytes.toString?,
      List.extract_toArray]
    have htext : (data.extract offset (offset + length)) =
        (data.drop offset).take (offset + length - offset) := rfl
    rw [htext]
    cases String.fromUTF8? ⟨((data.drop offset).take (offset + length - offset)).toArray⟩ <;> rfl
  · rw [Checked.require_of_not (by simpa using hle), if_pos (by omega)]
    rfl

theorem map_place_of_mapM {data : Array UInt8} {places : List (Nat × Nat)} {entries : List Entry}
    (h : places.mapM (entryAt data) = .ok entries) :
    entries.map (fun entry => (entry.offset, entry.length)) = places := by
  induction places generalizing entries with
  | nil =>
    cases h
    rfl
  | cons place rest ih =>
    rw [List.mapM_cons] at h
    cases hentry : entryAt data place with
    | error cause =>
      rw [hentry] at h
      cases h
    | ok entry =>
      cases hothers : rest.mapM (entryAt data) with
      | error cause =>
        rw [hentry, hothers] at h
        cases h
      | ok others =>
        rw [hentry, hothers] at h
        cases h
        rw [List.map_cons, place_of_entryAt hentry, ih hothers]

/-- The reader of the texts at some places of a run of bytes. -/
def readEntries (places : List (Nat × Nat)) (data : Bytes) : Reader Dictionary := do
  let entries ← places.mapM fun place => liftM (entryAt data.toArray place)
  pure ⟨data.toArray, entries.toArray⟩

theorem readEntries_eq (places : List (Nat × Nat)) (data rest : Bytes) :
    readEntries places data rest = (places.mapM (entryAt data.toArray)).map fun entries =>
      (⟨data.toArray, entries.toArray⟩, rest) := by
  rw [readEntries, Reader.bind_apply, Reader.mapM_lift]
  cases places.mapM (entryAt data.toArray) <;> rfl

/-- The parts are found where the reader finds them. The parser compares the ends of the parts with
    the length of the bytes, the reader their sizes with what is left: the three comparisons fail
    together, in the order of the parts. -/
inductive PartsFound (bytes : Bytes) :
    Checked (List (Nat × Nat) × Bytes) → Except Corruption (Dictionary × Bytes) → Prop where
  | ok {places : List (Nat × Nat)} {data : Bytes} (hcount : places.length < 2 ^ 32)
    (hplaces : ∀ place ∈ places, place.1 < 2 ^ 32 ∧ place.2 < 2 ^ 32)
    (hsize : data.length < 2 ^ 32) (hle : 8 + places.length * 8 + data.length ≤ bytes.length) :
    PartsFound bytes (.ok (places, data))
      (readEntries places data (bytes.drop (8 + places.length * 8 + data.length)))
  | refused (cause : Corruption) : PartsFound bytes (Checked.fail cause) (.error cause)

theorem partsFound (bytes : Bytes) : PartsFound bytes (parseParts bytes) (read bytes) := by
  rw [read, parseParts]
  rcases Nat.lt_or_ge bytes.length 8 with hshort | hheader
  · rw [Reader.bind_apply, Reader.requireLeft, Bytes.hasAtLeast_eq,
      if_neg (by simpa using hshort), Checked.require_of_not (by simpa using hshort)]
    exact .refused _
  obtain ⟨hcount, hcountLt⟩ := Checked.word32_of_le (show 0 + 4 ≤ bytes.length by omega)
  obtain ⟨hsize, hsizeLt⟩ := Checked.word32_of_le (show 4 + 4 ≤ bytes.length by omega)
  rw [List.drop_zero] at hcount hcountLt
  have hdrop4 : (bytes.drop 4).length = bytes.length - 4 := List.length_drop
  have hdrop8 : (bytes.drop 8).length = bytes.length - 8 := List.length_drop
  rw [Reader.requireLeft_bind_apply hheader, Reader.nat_bind_apply (by omega),
    Reader.nat_bind_apply (by omega), List.drop_drop, Checked.require_of (decide_eq_true hheader),
    Checked.ok_bind, hcount, Checked.ok_bind, hsize, Checked.ok_bind]
  generalize Bytes.toNat (bytes.take 4) = count at hcountLt ⊢
  generalize Bytes.toNat ((bytes.drop 4).take 4) = dataSize at hsizeLt ⊢
  rw [Checked.size_of_lt (by omega), Checked.ok_bind, Checked.size_of_lt (by omega),
    Checked.ok_bind]
  show PartsFound _ _ ((Reader.take (count * 8) _ >>= _) (bytes.drop 8))
  rcases Nat.lt_or_ge bytes.length (8 + count * 8) with hshort | hentries
  · rw [Reader.take_bind_of_lt (by omega), Checked.require_of_not (by simpa using hshort)]
    exact .refused _
  have hdrop : (bytes.drop (8 + count * 8)).length = bytes.length - (8 + count * 8) :=
    List.length_drop
  rw [Reader.take_bind_apply (by omega), List.drop_drop,
    Checked.require_of (decide_eq_true hentries), Checked.ok_bind, Checked.size_of_lt (by omega),
    Checked.ok_bind]
  rcases Nat.lt_or_ge bytes.length (8 + count * 8 + dataSize) with hshort | hdata
  · rw [Reader.take_bind_of_lt (by omega), Checked.require_of_not (by simpa using hshort)]
    exact .refused _
  have hfront : ((bytes.drop 8).take (count * 8)).length = count * 8 := by
    rw [List.length_take]
    omega
  obtain ⟨hcountPlaces, hplaces⟩ := length_placesOf hfront
  rw [Reader.take_bind_apply (by omega), List.drop_drop, Checked.require_of (decide_eq_true hdata),
    Checked.ok_bind, placesFrom_of_le hentries (by omega), Checked.ok_bind]
  simp only
  rw [Checked.size_of_lt (by omega), Checked.ok_bind, Checked.slice_of_le (by omega) hdata,
    Checked.ok_bind, Nat.add_sub_cancel_left]
  have hrun : ((bytes.drop (8 + count * 8)).take dataSize).length = dataSize := by
    rw [List.length_take]
    omega
  have hfound := @PartsFound.ok bytes _ _ (hcountPlaces.trans_lt hcountLt) hplaces
    (hrun.trans_lt hsizeLt) (by rw [hcountPlaces, hrun]; exact hdata)
  rw [hcountPlaces, hrun] at hfound
  exact hfound

theorem parses_read (bytes : Bytes) : Parses encodedSize bytes (parse bytes) (read bytes) := by
  have hparts := partsFound bytes
  rw [parse]
  generalize parseParts bytes = parts at hparts ⊢
  generalize read bytes = found at hparts ⊢
  cases hparts with
  | refused cause => exact .refused cause
  | @ok places data _ hplaces _ hle =>
    rw [Checked.ok_bind, readEntries_eq]
    dsimp only
    rw [Checked.mapM_mapError fun place hmem => entryIn_eq data (hplaces place hmem)]
    cases hentries : places.mapM (entryAt data.toArray) with
    | error cause => exact .refused cause
    | ok entries =>
      have hlength : entries.length = places.length := by
        rw [← map_place_of_mapM hentries, List.length_map]
      have hstored : 8 + places.length * 8 + data.length =
          encodedSize ⟨data.toArray, entries.toArray⟩ := by
        rw [encodedSize, List.size_toArray, List.size_toArray, hlength]
      rw [hstored] at hle ⊢
      exact .ok _ hle

theorem follows_scan : Follows scan read := Scanner.follows_within fun bytes _ => parses_read bytes

end Dictionary

/-! ## Cells -/

/-- Scans a cell of a kind. -/
def Cell.scan : Kind → Scanner Cell
  | .float64 => do
    let bits ← Scanner.nat 8 "float value"
    pure (.float64 ⟨UInt64.ofNat bits⟩)
  | .bool => do
    let byte ← Scanner.nat 1 "bool value"
    pure (.bool (byte != 0))
  | .enum => do
    let id ← Scanner.nat 4 "enum value"
    pure (.enum id)
  | .any => do
    let length ← Scanner.nat 4 "any value length"
    let bytes ← Scanner.take length "any value"
    match Value.decode? bytes with
    | some v => pure (.any v)
    | none => Scanner.check (Checked.fail .invalidValue)

theorem Cell.follows_scan (kind : Kind) : Follows (Cell.scan kind) (Cell.read kind) := by
  cases kind with
  | float64 => exact (Scanner.follows_nat 8 _).bind fun bits => Follows.pure _
  | bool => exact (Scanner.follows_nat 1 _).bind fun byte => Follows.pure _
  | enum => exact (Scanner.follows_nat 4 _).bind fun id => Follows.pure _
  | any =>
    refine (Scanner.follows_nat 4 _).bind fun length => ?_
    refine (Scanner.follows_take length _).bind fun bytes => ?_
    cases Value.decode? bytes with
    | none => exact Follows.fail _
    | some v => exact Follows.pure _

/-! ## Segments -/

namespace Segment

variable {kind : Kind} {capacity : Nat} {s : Segment}

/-- Writes a cell at a place that the segment must have. -/
def putChecked (s : Segment) (offset : Nat) (cell : Cell) : Checked Segment := do
  let written ← (s.setAt offset cell).mapError .refused
  let _ ← Checked.place (s.cells.get? offset)
  pure written

/-- Scans the cells of some offsets and writes them. -/
def scanCells (kind : Kind) : List Nat → Segment → Scanner Segment
  | [], s => pure s
  | offset :: rest, s => do
    let cell ← Cell.scan kind
    let s ← Scanner.check (s.putChecked offset cell)
    scanCells kind rest s

/-- Scans a segment of a kind for a chunk of `chunkSize` rows (`read_from`). The product that is
    compared with the bytes left stays at the greatest size instead of going past it. -/
def scan (kind : Kind) (chunkSize : Nat) : Scanner Segment := do
  let code ← Scanner.nat 1 "segment kind"
  match Kind.ofCode? code with
  | none => Scanner.check (Checked.fail (.unknownKind code))
  | some found =>
    Scanner.require (found = kind) (.segmentKind found kind)
    let capacity ← Scanner.nat 4 "segment capacity"
    Scanner.require (capacity ≤ chunkSize) (.segmentCapacity capacity chunkSize)
    let presence ← Bitmap.scan
    let offsets := presence.toList
    Scanner.require (offsets.all (· < capacity)) .segmentPresence
    let left ← Scanner.remaining
    Scanner.require (min (presence.count * minCellSize kind) (2 ^ 64 - 1) ≤ left)
      (.truncated "Segment values")
    let used ← Scanner.check (Checked.size ((offsets.getLast?.map (· + 1)).getD 0))
    scanCells kind offsets (withCapacity kind used)

theorem WellFormed.putChecked_eq (hs : s.WellFormed kind capacity) {offset : Nat}
    (hlt : offset < capacity) {cell : Cell} (hkind : cell.kind = kind) :
    s.putChecked offset cell = .ok (s.put offset cell) := by
  have hcheck : s.checkWrite offset (some cell) = .ok () :=
    hs.checkWrite_of_lt hlt fun c hc => by rwa [← Option.mem_some_iff.mp hc]
  obtain ⟨there, hthere⟩ := Option.isSome_iff_exists.mp (Cells.get?_isSome hs.room hlt)
  rw [checkWrite] at hcheck
  rw [putChecked, setAt, hcheck, hthere]
  rfl

/-- Cells that are written as they are scanned are those that are read first and written then. -/
theorem WellFormed.follows_scanCells (hs : s.WellFormed kind capacity) {offsets : List Nat}
    (hlt : ∀ offset ∈ offsets, offset < capacity) :
    Follows (scanCells kind offsets s) (do
      let cells ← offsets.mapM fun _ => Cell.read kind
      pure (s.putAll (offsets.zip cells))) := by
  -- the segment written so far is well-formed, so the next place is there
  induction offsets generalizing s with
  | nil => exact Follows.pure s
  | cons offset rest ih =>
    have hfirst := hlt offset List.mem_cons_self
    simp only [List.mapM_cons, bind_assoc, pure_bind]
    refine (Cell.follows_scan kind).bind_of (Cell.yields_read kind) fun cell hkind => ?_
    refine Follows.check_bind (hs.putChecked_eq hfirst hkind) ?_
    exact ih (hs.put hfirst cell) fun other hmem => hlt other (List.mem_cons_of_mem _ hmem)

theorem follows_scan {chunkSize : Nat} (hsize : chunkSize ≤ 2 ^ 31) :
    Follows (scan kind chunkSize) (read kind chunkSize) := by
  refine (Scanner.follows_nat 1 _).bind fun code => ?_
  cases Kind.ofCode? code with
  | none => exact Follows.fail _
  | some found =>
    refine Follows.require_bind fun _ => (Scanner.follows_nat 4 _).bind fun capacity => ?_
    refine Follows.require_bind fun hcapacity => Bitmap.follows_scan.bind fun presence => ?_
    refine Follows.require_bind fun hpresence => ?_
    have hle : capacity ≤ chunkSize := of_decide_eq_true hcapacity
    have hused : (presence.toList.getLast?.map (· + 1)).getD 0 ≤ capacity :=
      used_le (by simpa using hpresence)
    refine Follows.remaining_bind (fun left hleft => ?_) ?_
    -- what is left is less than the size at which the product stays
    · rw [presence.count_eq, decide_eq_decide]
      omega
    refine Follows.check_bind (Checked.size_of_lt (by omega)) ?_
    exact (wellFormed_withCapacity kind _).follows_scanCells fun offset hmem =>
      lt_used presence.toList_pairwise hmem

end Segment

end ColumnStore
